import StructuralTyping.Proofs.Quotient

/-!
# Refining classes against their anchors

A class that is not scheduled agrees with its anchor, for whoever changes class has the classes of
its referrers scheduled, and no two names with the same tree are ever separated. So the classes left
when nothing is scheduled are the classes of bisimilar names. A split adds an anchor, and scheduled
classes are distinct, which bounds the rounds. Main statement: `minimize_bisimilarity`.
-/
namespace StructuralTyping

theorem NameMap.contains_of_size_eq {α β : Type} {f : NameMap α} {g : NameMap β}
    (hsize : f.size = g.size) (hsub : ∀ k, f.contains k → g.contains k) {k : String}
    (hk : g.contains k) : f.contains k := by
  have hperm : f.keys.Perm g.keys := by
    have hsubset : f.keys ⊆ g.keys := fun k hk => mem_keys_iff.2 (hsub k (mem_keys_iff.1 hk))
    refine (List.subperm_of_subset f.nodup_keys hsubset).perm_of_length_le ?_
    simpa [keys, size] using hsize.ge
  exact mem_keys_iff.1 (hperm.mem_iff.2 (mem_keys_iff.2 hk))

/-- A loop of checks fails with the error of one of them, or all of them are passed. -/
theorem forM_cases {α ε : Type} (f : α → Except ε Unit) (l : List α) :
    (∃ a ∈ l, ∃ e, f a = .error e ∧ l.forM f = .error e) ∨
      (∀ a ∈ l, f a = .ok ()) ∧ l.forM f = .ok () := by
  induction l with
  | nil => exact .inr ⟨by simp, rfl⟩
  | cons a l ih =>
    cases ha : f a with
    | error e => exact .inl ⟨a, List.mem_cons_self, e, ha, by simp only [List.forM, ha]; rfl⟩
    | ok _ =>
      have hcons : (a :: l).forM f = l.forM f := by
        simp only [List.forM, ha]
        rfl
      rw [hcons]
      refine ih.imp ?_ fun ⟨hall, hok⟩ => ⟨List.forall_mem_cons.2 ⟨ha, hall⟩, hok⟩
      exact fun ⟨b, hb, h⟩ => ⟨b, List.mem_cons_of_mem a hb, h⟩

namespace Code
variable {rep : String → String} {x y : Code String}

theorem fields_differ_iff {f g : NameMap String} :
    (f.size != g.size || f.entries.any fun (label, a) => (g.get? label).all (rep a != rep ·)) =
      false ↔ f.Alike (fun a b => rep a = rep b) g := by
  rw [Bool.or_eq_false_iff, bne_eq_false_iff_eq, List.any_eq_false]
  constructor
  · rintro ⟨hsize, hall⟩
    have hfound (label a : String) (ha : f.get? label = some a) :
        ∃ b, g.get? label = some b ∧ rep a = rep b := by
      have hentry := hall _ (NameMap.get?_eq_some_iff.1 ha)
      cases hb : g.get? label <;> simp_all
    have hsub : ∀ k, f.contains k → g.contains k := by
      intro k hk
      obtain ⟨a, ha⟩ := NameMap.contains_iff.1 hk
      obtain ⟨b, hb, -⟩ := hfound k a ha
      exact NameMap.contains_of_get? hb
    intro label
    cases ha : f.get? label with
    | none =>
      have hnone : g.get? label = none := by
        rw [NameMap.get?_eq_none_iff] at ha ⊢
        exact fun hb => ha (NameMap.contains_of_size_eq hsize hsub hb)
      rw [hnone]
      exact .none
    | some a =>
      obtain ⟨b, hb, hab⟩ := hfound label a ha
      rw [hb]
      exact .some hab
  · intro h
    refine ⟨?_, ?_⟩
    · simpa [NameMap.keys, NameMap.size] using congrArg List.length h.keys_eq
    · rintro ⟨label, a⟩ he
      have hrel := h label
      rw [NameMap.get?_eq_some_iff.2 he] at hrel
      cases hb : g.get? label with
      | none => simp [hb] at hrel
      | some b => simpa [hb] using hrel

theorem differ_eq_false_iff : x.differ rep y = false ↔ x.Alike (fun a b => rep a = rep b) y := by
  cases x <;> cases y <;> simp only [differ, Alike, fields_differ_iff, bne_eq_false_iff_eq,
    reduceCtorEq]

end Code

namespace Codes
variable {c : Codes} {a b n r anchor newAnchor : String} {p : Partition} {s : Refinement}
  {members moved same worklist : List String}

section Names

theorem mem_names_iff : n ∈ c.names ↔ c.withUnit.contains n := by
  rw [names, NameMap.mem_keys_iff, NameMap.contains_insert, NameMap.contains_map, contains_withUnit]

theorem names_ascending (c : Codes) : c.names.Pairwise (· < ·) :=
  List.pairwise_map.2 ((c.map fun _ => ()).insert Text.unitName ()).ascending

theorem nodup_names (c : Codes) : c.names.Nodup := c.names_ascending.imp String.ne_of_lt

theorem get?_withUnit_of_mem_names (h : n ∈ c.names) : c.withUnit.get? n = some (c.codeOf n) :=
  get?_withUnit_eq_codeOf (mem_nodes_iff.2 (mem_names_iff.1 h))

theorem mem_foldl_referrers (es : List (String × String)) (m : NameMap (List String)) :
    n ∈ (es.foldl (fun m (r, n) => m.insert r (m.getD r [] ++ [n])) m).getD r [] ↔
      n ∈ m.getD r [] ∨ (r, n) ∈ es := by
  induction es generalizing m with
  | nil => simp
  | cons e es ih =>
    obtain ⟨u, v⟩ := e
    rw [List.foldl_cons, ih]
    simp only [NameMap.getD, NameMap.get?_insert, List.mem_cons, Prod.mk.injEq]
    by_cases hr : r = u
    · subst hr
      simp [or_assoc]
    · simp [hr]

theorem mem_referrers_iff :
    n ∈ c.referrers.getD r [] ↔ n ∈ c.names ∧ r ∈ (c.codeOf n).refs := by
  rw [referrers, mem_foldl_referrers]
  simp [NameMap.getD]

end Names

namespace Refinement

theorem rep_eq_of_get? (h : s.representatives.get? n = some a) : s.rep n = a := by
  simp [rep, NameMap.getD, h]

theorem get?_foldl_insert_anchor (reps : NameMap String) (moved : List String) (b n : String) :
    (moved.foldl (·.insert · b) reps).get? n = if n ∈ moved then some b else reps.get? n := by
  induction moved generalizing reps with
  | nil => simp
  | cons m moved ih =>
    rw [List.foldl_cons, ih, NameMap.get?_insert]
    by_cases hm : n ∈ moved <;> by_cases hn : n = m <;> simp [hm, hn]

theorem toPartition_schedule (s : Refinement) (a : String) :
    (s.schedule a).toPartition = s.toPartition := by
  unfold schedule
  split <;> rfl

theorem mem_worklist_schedule : n ∈ (s.schedule a).worklist ↔ n ∈ s.worklist ∨ n = a := by
  unfold schedule
  split
  case isTrue h =>
    constructor
    · exact .inl
    · rintro (hn | rfl)
      · exact hn
      · exact h
  case isFalse h => simp

theorem nodup_worklist_schedule (h : s.worklist.Nodup) : (s.schedule a).worklist.Nodup := by
  unfold schedule
  split
  case isTrue => exact h
  case isFalse ha => exact List.nodup_append.2 ⟨h, List.nodup_singleton a, by
    rintro x hx y hy rfl
    exact ha (List.mem_singleton.1 hy ▸ hx)⟩

theorem toPartition_foldl_schedule (anchors : List String) (s : Refinement) :
    (anchors.foldl schedule s).toPartition = s.toPartition := by
  induction anchors generalizing s with
  | nil => rfl
  | cons a anchors ih => rw [List.foldl_cons, ih, toPartition_schedule]

theorem mem_worklist_foldl_schedule {anchors : List String} :
    n ∈ (anchors.foldl schedule s).worklist ↔ n ∈ s.worklist ∨ n ∈ anchors := by
  induction anchors generalizing s with
  | nil => simp
  | cons a anchors ih =>
    rw [List.foldl_cons, ih, mem_worklist_schedule, List.mem_cons, or_assoc]

theorem nodup_worklist_foldl_schedule (anchors : List String) (h : s.worklist.Nodup) :
    (anchors.foldl schedule s).worklist.Nodup := by
  induction anchors generalizing s with
  | nil => exact h
  | cons a anchors ih => exact ih (nodup_worklist_schedule h)

theorem toPartition_split (s : Refinement) (referrers : NameMap (List String))
    (a b : String) (same moved : List String) :
    (s.split referrers a b same moved).toPartition =
      ⟨(s.classes.insert a same).insert b moved, moved.foldl (·.insert · b) s.representatives⟩ :=
  toPartition_foldl_schedule _ _

theorem get?_representatives_split (s : Refinement) (referrers : NameMap (List String))
    (a b : String) (same moved : List String) (n : String) :
    (s.split referrers a b same moved).representatives.get? n =
      if n ∈ moved then some b else s.representatives.get? n := by
  rw [toPartition_split]
  exact get?_foldl_insert_anchor _ moved b n

theorem get?_classes_split (s : Refinement) (referrers : NameMap (List String))
    (a b : String) (same moved : List String) (n : String) :
    (s.split referrers a b same moved).classes.get? n =
      if n = b then some moved else if n = a then some same else s.classes.get? n := by
  rw [toPartition_split, NameMap.get?_insert, NameMap.get?_insert]

theorem rep_split (s : Refinement) (referrers : NameMap (List String)) (a b : String)
    (same moved : List String) (n : String) :
    (s.split referrers a b same moved).rep n = if n ∈ moved then b else s.rep n := by
  simp only [rep, NameMap.getD, get?_representatives_split]
  split_ifs <;> rfl

theorem mem_worklist_split {referrers : NameMap (List String)} :
    n ∈ (s.split referrers a b same moved).worklist ↔ n ∈ s.worklist ∨ n = a ∨ n = b ∨
      ∃ m ∈ moved, ∃ k ∈ referrers.getD m [], (s.split referrers a b same moved).rep k = n := by
  simp only [rep, toPartition_split]
  rw [split, mem_worklist_foldl_schedule]
  simp

end Refinement

section Invariant

/-- Every name is represented by the anchor of its class, and anchors are where they should be. -/
structure Anchored (c : Codes) (p : Partition) : Prop where
  contains : ∀ n, p.representatives.contains n ↔ n ∈ c.names
  unit : p.representatives.get? Text.unitName = some Text.unitName
  idem : ∀ n a, p.representatives.get? n = some a → p.representatives.get? a = some a
  le : ∀ n a, p.representatives.get? n = some a → a = Text.unitName ∨ a ≤ n
  classes : ∀ a ms, p.classes.get? a = some ms ↔
    p.representatives.get? a = some a ∧ ms = c.names.filter (p.representatives.get? · = some a)

/-- No two bisimilar names are apart, and a class that is not scheduled agrees with its anchor. -/
structure Refining (c : Codes) (s : Refinement) : Prop extends Anchored c s.toPartition where
  coarse : ∀ a b, c.withUnit.Bisimilar c.withUnit a b → s.rep a = s.rep b
  nodup : s.worklist.Nodup
  scheduled : ∀ a ∈ s.worklist, s.representatives.get? a = some a
  stable : ∀ n a, s.representatives.get? n = some a → a ∉ s.worklist → s.differs c a n = false

theorem differs_eq_false_iff : s.differs c a n = false ↔
    (c.codeOf a).Alike (fun u v => s.rep u = s.rep v) (c.codeOf n) := Code.differ_eq_false_iff

theorem differs_self (c : Codes) (s : Refinement) (a : String) : s.differs c a a = false :=
  differs_eq_false_iff.2 ((Code.alike_eq_iff.2 rfl).imp fun _ _ _ _ h => congrArg _ h)

theorem Anchored.mem_names (h : c.Anchored p) (hn : p.representatives.get? n = some a) :
    n ∈ c.names := (h.contains n).1 (NameMap.contains_of_get? hn)

/-- If the members of a class agree with its anchor, so do names that are bisimilar to them. -/
theorem differs_congr (hcoarse : ∀ a b, c.withUnit.Bisimilar c.withUnit a b → s.rep a = s.rep b)
    (hn : n ∈ c.names) (h : c.withUnit.Bisimilar c.withUnit n r) :
    s.differs c a n = false → s.differs c a r = false := by
  rw [differs_eq_false_iff, differs_eq_false_iff]
  intro hagree
  obtain ⟨y, hy, halike⟩ := h.exists_code (get?_withUnit_of_mem_names hn)
  have hr : r ∈ c.names := mem_names_iff.2 (NameMap.contains_of_get? hy)
  obtain rfl := Option.some.inj ((get?_withUnit_of_mem_names hr).symm.trans hy)
  refine (hagree.comp halike).imp ?_
  rintro u - v - ⟨w, huw, hwv⟩
  exact huw.trans (hcoarse w v hwv)

end Invariant

section Split

/-- A scheduled class whose members that differ from the anchor are to be moved. -/
structure Splitting (c : Codes) (s : Refinement) (anchor newAnchor : String)
    (moved : List String) : Prop where
  anchored : c.Anchored s.toPartition
  isAnchor : s.representatives.get? anchor = some anchor
  moved_eq : moved = c.names.filter fun n =>
    s.representatives.get? n = some anchor ∧ s.differs c anchor n
  first : moved.head? = some newAnchor

/-- The members that agree with the anchor of their class. -/
def kept (c : Codes) (s : Refinement) (anchor : String) : List String :=
  c.names.filter fun n => s.representatives.get? n = some anchor ∧ ¬s.differs c anchor n

/-- The refinement once the other members have a class of their own. -/
abbrev parted (c : Codes) (s : Refinement) (anchor newAnchor : String) (moved : List String) :
    Refinement := s.split c.referrers anchor newAnchor (c.kept s anchor) moved

namespace Splitting

theorem mem_moved_iff (h : c.Splitting s anchor newAnchor moved) :
    n ∈ moved ↔ s.representatives.get? n = some anchor ∧ s.differs c anchor n := by
  rw [h.moved_eq, List.mem_filter]
  simp only [decide_eq_true_eq, and_iff_right_iff_imp]
  exact fun hn => h.anchored.mem_names hn.1

theorem newAnchor_mem (h : c.Splitting s anchor newAnchor moved) : newAnchor ∈ moved :=
  List.mem_of_mem_head? h.first

/-- Anchors stay in their classes. -/
theorem notMem_moved (h : c.Splitting s anchor newAnchor moved)
    (ha : s.representatives.get? a = some a) : a ∉ moved := by
  rw [h.mem_moved_iff]
  rintro ⟨hanchor, hdiffers⟩
  obtain rfl := Option.some.inj (ha.symm.trans hanchor)
  simp [differs_self] at hdiffers

theorem newAnchor_le (h : c.Splitting s anchor newAnchor moved) (hn : n ∈ moved) :
    newAnchor ≤ n := by
  have hascending : moved.Pairwise (· < ·) := by
    rw [h.moved_eq]
    exact c.names_ascending.filter _
  have hfirst := h.first
  cases moved with
  | nil => cases hn
  | cons m moved =>
    obtain rfl := Option.some.inj hfirst
    rcases List.mem_cons.1 hn with rfl | hn
    · exact String.le_refl n
    · exact String.not_lt.1 (String.lt_asymm ((List.pairwise_cons.1 hascending).1 n hn))

variable {referrers : NameMap (List String)}

theorem get?_split_eq_some_iff :
    (s.split referrers anchor newAnchor same moved).representatives.get? n = some a ↔
      n ∈ moved ∧ a = newAnchor ∨ n ∉ moved ∧ s.representatives.get? n = some a := by
  rw [Refinement.get?_representatives_split]
  by_cases hn : n ∈ moved <;> simp [hn, eq_comm]

variable (h : c.Splitting s anchor newAnchor moved)
include h

/-- After a split the new anchor is one more anchor. -/
theorem get?_split_self_iff :
    (s.split referrers anchor newAnchor same moved).representatives.get? a = some a ↔
      a = newAnchor ∨ s.representatives.get? a = some a := by
  rw [get?_split_eq_some_iff]
  constructor
  · rintro (⟨-, ha⟩ | ⟨-, ha⟩)
    · exact .inl ha
    · exact .inr ha
  · rintro (rfl | ha)
    · exact .inl ⟨h.newAnchor_mem, rfl⟩
    · exact .inr ⟨h.notMem_moved ha, ha⟩

/-- The members of each class after a split. -/
theorem get?_split_eq_some_iff_member :
    (s.split referrers anchor newAnchor same moved).representatives.get? n = some a ↔
      if a = newAnchor then n ∈ moved
      else if a = anchor then s.representatives.get? n = some anchor ∧ ¬s.differs c anchor n
      else s.representatives.get? n = some a := by
  rw [get?_split_eq_some_iff, h.mem_moved_iff]
  split_ifs with hnew hanchor
  · subst hnew
    have hne : s.representatives.get? n ≠ some a := fun hn =>
      h.notMem_moved (h.anchored.idem n a hn) h.newAnchor_mem
    simp [hne]
  · subst hanchor
    simp only [hnew, and_false, false_or]
    tauto
  · have hne : s.representatives.get? n = some a → s.representatives.get? n ≠ some anchor :=
      fun hn hn' => hanchor (Option.some.inj (hn.symm.trans hn'))
    simp only [hnew, and_false, false_or]
    tauto

theorem anchored_parted : c.Anchored (c.parted s anchor newAnchor moved).toPartition where
  contains n := by
    rw [← h.anchored.contains n, NameMap.contains, NameMap.contains,
      Refinement.get?_representatives_split]
    split_ifs with hn
    · simp [(h.mem_moved_iff.1 hn).1]
    · rfl
  unit := h.get?_split_self_iff.2 (.inr h.anchored.unit)
  idem n a hn := by
    rw [h.get?_split_self_iff]
    rcases get?_split_eq_some_iff.1 hn with ⟨-, ha⟩ | ⟨-, hn⟩
    · exact .inl ha
    · exact .inr (h.anchored.idem n a hn)
  le n a hn := by
    rcases get?_split_eq_some_iff.1 hn with ⟨hmoved, rfl⟩ | ⟨-, hn⟩
    · exact .inr (h.newAnchor_le hmoved)
    · exact h.anchored.le n a hn
  classes a ms := by
    simp only [h.get?_split_self_iff, h.get?_split_eq_some_iff_member,
      Refinement.get?_classes_split]
    by_cases hnew : a = newAnchor
    · have hmoved : c.names.filter (· ∈ moved) = moved := by
        conv_rhs => rw [h.moved_eq]
        exact List.filter_congr fun n _ => by simp only [h.mem_moved_iff]
      simp [hnew, hmoved, eq_comm]
    by_cases hanchor : a = anchor
    · subst hanchor
      simp only [hnew, if_false, if_true, false_or, h.isAnchor, true_and]
      rw [Option.some.injEq, eq_comm (b := ms), kept]
    · simp only [hnew, hanchor, if_false, false_or]
      exact h.anchored.classes a ms

theorem mem_moved_of_bisimilar
    (hcoarse : ∀ a b, c.withUnit.Bisimilar c.withUnit a b → s.rep a = s.rep b)
    (hab : c.withUnit.Bisimilar c.withUnit a b) (ha : a ∈ moved) : b ∈ moved := by
  obtain ⟨hanchor, hdiffers⟩ := h.mem_moved_iff.1 ha
  have hb : b ∈ c.names := by
    rw [mem_names_iff, ← hab.contains_iff, ← mem_names_iff]
    exact h.anchored.mem_names hanchor
  obtain ⟨x, hx⟩ := NameMap.contains_iff.1 ((h.anchored.contains b).2 hb)
  have hrep : x = anchor := by
    rw [← Refinement.rep_eq_of_get? hx, ← hcoarse a b hab, Refinement.rep_eq_of_get? hanchor]
  refine h.mem_moved_iff.2 ⟨hrep ▸ hx, ?_⟩
  by_contra hsame
  rw [differs_congr hcoarse hb hab.symm (Bool.eq_false_iff.2 hsame)] at hdiffers
  cases hdiffers

/-- A split separates no bisimilar names. -/
theorem coarse_parted
    (hcoarse : ∀ a b, c.withUnit.Bisimilar c.withUnit a b → s.rep a = s.rep b)
    (hab : c.withUnit.Bisimilar c.withUnit a b) :
    (c.parted s anchor newAnchor moved).rep a = (c.parted s anchor newAnchor moved).rep b := by
  have hmoved : a ∈ moved ↔ b ∈ moved :=
    ⟨h.mem_moved_of_bisimilar hcoarse hab, h.mem_moved_of_bisimilar hcoarse hab.symm⟩
  simp only [Refinement.rep_split, hmoved, hcoarse a b hab]

/-- A name keeps what it agreed with unless its class is scheduled. -/
theorem stable_parted
    (hstable : ∀ n a, s.representatives.get? n = some a → a ≠ anchor → a ∉ s.worklist →
      s.differs c a n = false)
    (hn : (c.parted s anchor newAnchor moved).representatives.get? n = some a)
    (ha : a ∉ (c.parted s anchor newAnchor moved).worklist) :
    (c.parted s anchor newAnchor moved).differs c a n = false := by
  have hanchored := h.anchored_parted
  -- what a name of the class refers to has not moved, or the class would be scheduled
  have hrefs : ∀ k, (c.parted s anchor newAnchor moved).representatives.get? k = some a →
      ∀ r ∈ (c.codeOf k).refs, r ∉ moved := by
    intro k hk r hr hmoved
    refine ha (Refinement.mem_worklist_split.2 (.inr (.inr (.inr ⟨r, hmoved, k, ?_, ?_⟩))))
    · exact mem_referrers_iff.2 ⟨hanchored.mem_names hk, hr⟩
    · exact Refinement.rep_eq_of_get? hk
  rw [Refinement.mem_worklist_split, not_or, not_or, not_or] at ha
  obtain ⟨hqueue, hanchor, hnew, -⟩ := ha
  have hold : s.representatives.get? n = some a := by
    rcases get?_split_eq_some_iff.1 hn with ⟨-, ha⟩ | ⟨-, hn⟩
    · exact absurd ha hnew
    · exact hn
  have hagree := differs_eq_false_iff.1 (hstable n a hold hanchor hqueue)
  refine differs_eq_false_iff.2 (hagree.imp fun u hu v hv huv => ?_)
  rw [Refinement.rep_split, Refinement.rep_split,
    if_neg (hrefs a (hanchored.idem n a hn) u hu), if_neg (hrefs n hn v hv), huv]

theorem scheduled_parted (hscheduled : ∀ a ∈ s.worklist, s.representatives.get? a = some a)
    (ha : a ∈ (c.parted s anchor newAnchor moved).worklist) :
    (c.parted s anchor newAnchor moved).representatives.get? a = some a := by
  rcases Refinement.mem_worklist_split.1 ha with ha | rfl | rfl | ⟨m, -, k, hk, rfl⟩
  · exact h.get?_split_self_iff.2 (.inr (hscheduled a ha))
  · exact h.get?_split_self_iff.2 (.inr h.isAnchor)
  · exact h.get?_split_self_iff.2 (.inl rfl)
  · obtain ⟨x, hx⟩ := NameMap.contains_iff.1
      ((h.anchored_parted.contains k).2 (mem_referrers_iff.1 hk).1)
    rw [Refinement.rep_eq_of_get? hx]
    exact h.anchored_parted.idem k x hx

end Splitting

end Split

section Step

/-- A class that is checked stays as it is if no member differs from its anchor, else it is split.
-/
theorem Refining.check_cases (h : c.Refining ⟨p, anchor :: worklist⟩)
    (hm : p.classes.get? anchor = some members) :
    ((∀ n, p.representatives.get? n = some anchor →
        (Refinement.mk p worklist).differs c anchor n = false) ∧
      Refinement.check c c.referrers ⟨p, worklist⟩ anchor members = ⟨p, worklist⟩) ∨
    ∃ newAnchor moved, c.Splitting ⟨p, worklist⟩ anchor newAnchor moved ∧
      Refinement.check c c.referrers ⟨p, worklist⟩ anchor members =
        c.parted ⟨p, worklist⟩ anchor newAnchor moved := by
  obtain ⟨hanchor, hmembers⟩ := (h.classes anchor members).1 hm
  unfold Refinement.check
  split
  case h_1 hnone =>
    have hall : ∀ n ∈ members, (Refinement.mk p worklist).differs c anchor n = false := by
      simpa using hnone
    have hsame : members.filter (!(Refinement.mk p worklist).differs c anchor ·) = members :=
      List.filter_eq_self.2 fun n hn => by simp [hall n hn]
    refine .inl ⟨fun n hn => hall n ?_, ?_⟩
    · rw [hmembers, List.mem_filter]
      exact ⟨h.mem_names hn, by simpa using hn⟩
    · simp only [hsame, NameMap.insert_eq_self hm]
  case h_2 newAnchor moved hmoved =>
    have hkept : members.filter (!(Refinement.mk p worklist).differs c anchor ·) =
        c.kept ⟨p, worklist⟩ anchor := by
      rw [hmembers, List.filter_filter]
      simp [kept, Bool.and_comm]
    refine .inr ⟨newAnchor, newAnchor :: moved, ⟨h.toAnchored, hanchor, ?_, rfl⟩, by rw [hkept]⟩
    rw [← hmoved, hmembers, List.filter_filter]
    simp [Bool.and_comm]

/-- Checking a scheduled class keeps the invariant. -/
theorem Refining.check (h : c.Refining ⟨p, anchor :: worklist⟩)
    (hm : p.classes.get? anchor = some members) :
    c.Refining (Refinement.check c c.referrers ⟨p, worklist⟩ anchor members) := by
  have hnodup := List.nodup_cons.1 h.nodup
  have hscheduled : ∀ a ∈ worklist, p.representatives.get? a = some a := fun a ha =>
    h.scheduled a (List.mem_cons_of_mem _ ha)
  have hstable : ∀ n a, p.representatives.get? n = some a → a ≠ anchor → a ∉ worklist →
      (Refinement.mk p worklist).differs c a n = false := fun n a hn hne ha =>
    h.stable n a hn (by simp [hne, ha])
  rcases h.check_cases hm with ⟨hall, heq⟩ | ⟨newAnchor, moved, hs, heq⟩
  · rw [heq]
    refine ⟨h.toAnchored, h.coarse, hnodup.2, hscheduled, fun n a hn ha => ?_⟩
    by_cases hanchor : a = anchor
    · exact hanchor ▸ hall n (hanchor ▸ hn)
    · exact hstable n a hn hanchor ha
  · rw [heq]
    exact {
      toAnchored := hs.anchored_parted
      coarse := fun a b => hs.coarse_parted h.coarse
      nodup := Refinement.nodup_worklist_foldl_schedule _ hnodup.2
      scheduled := fun a => hs.scheduled_parted hscheduled
      stable := fun n a => hs.stable_parted hstable }

end Step

section Rounds

def anchors (c : Codes) (p : Partition) : Finset String :=
  c.names.toFinset.filter fun n => p.representatives.get? n = some n

/-- How many rounds are left at most. -/
def distance (c : Codes) (s : Refinement) : Nat :=
  (c.names.length - (c.anchors s.toPartition).card) * (c.names.length + 1) + s.worklist.length

theorem card_anchors_le (c : Codes) (p : Partition) : (c.anchors p).card ≤ c.names.length :=
  (Finset.card_filter_le _ _).trans c.names.toFinset_card_le

theorem Anchored.mem_anchors_iff (h : c.Anchored p) :
    a ∈ c.anchors p ↔ p.representatives.get? a = some a := by
  simp only [anchors, Finset.mem_filter, List.mem_toFinset, and_iff_right_iff_imp]
  exact h.mem_names

theorem Refining.length_worklist_le (h : c.Refining s) :
    s.worklist.length ≤ (c.anchors s.toPartition).card := by
  rw [← List.toFinset_card_of_nodup h.nodup]
  refine Finset.card_le_card fun a ha => h.mem_anchors_iff.2 ?_
  exact h.scheduled a (List.mem_toFinset.1 ha)

theorem Splitting.card_anchors_lt (h : c.Splitting s anchor newAnchor moved) :
    (c.anchors s.toPartition).card <
      (c.anchors (c.parted s anchor newAnchor moved).toPartition).card := by
  have hmem (a : String) : a ∈ c.anchors (c.parted s anchor newAnchor moved).toPartition ↔
      a = newAnchor ∨ a ∈ c.anchors s.toPartition := by
    rw [h.anchored_parted.mem_anchors_iff, h.get?_split_self_iff, h.anchored.mem_anchors_iff]
  apply Finset.card_lt_card
  rw [Finset.ssubset_iff_of_subset fun a ha => (hmem a).2 (.inr ha)]
  refine ⟨newAnchor, (hmem newAnchor).2 (.inl rfl), fun ha => ?_⟩
  exact h.notMem_moved (h.anchored.mem_anchors_iff.1 ha) h.newAnchor_mem

/-- A check that does not split takes a class off the worklist, and one that does makes room for all
classes on it. -/
theorem Refining.distance_check_lt (h : c.Refining ⟨p, anchor :: worklist⟩)
    (hm : p.classes.get? anchor = some members) :
    c.distance (Refinement.check c c.referrers ⟨p, worklist⟩ anchor members) <
      c.distance ⟨p, anchor :: worklist⟩ := by
  have hnext := h.check hm
  rcases h.check_cases hm with ⟨-, heq⟩ | ⟨newAnchor, moved, hs, heq⟩
  · rw [heq]
    simp [distance]
  · rw [heq] at hnext ⊢
    have hlt := hs.card_anchors_lt
    have hle := c.card_anchors_le (c.parted ⟨p, worklist⟩ anchor newAnchor moved).toPartition
    have hlength := hnext.length_worklist_le
    unfold distance
    simp only [List.length_cons] at hlt ⊢
    generalize (c.anchors p).card = before at hlt ⊢
    generalize (c.anchors _).card = after at hlt hle hlength ⊢
    have hmul := Nat.mul_le_mul_right (c.names.length + 1)
      (by omega : c.names.length - after + 1 ≤ c.names.length - before)
    rw [Nat.succ_mul] at hmul
    omega

/-- With enough rounds left, no class vanishes and the refinement ends with nothing scheduled. -/
theorem Refining.exists_run {fuel : Nat} (h : c.Refining s) (hfuel : c.distance s ≤ fuel) :
    ∃ p, Refinement.run c c.referrers fuel s = .ok p ∧ c.Refining ⟨p, []⟩ := by
  induction fuel generalizing s with
  | zero =>
    obtain ⟨p, worklist⟩ := s
    obtain rfl : worklist = [] := by
      simp only [distance, Nat.le_zero, Nat.add_eq_zero_iff] at hfuel
      exact List.length_eq_zero_iff.1 hfuel.2
    exact ⟨p, by rw [Refinement.run], h⟩
  | succ fuel ih =>
    obtain ⟨p, worklist⟩ := s
    cases worklist with
    | nil => exact ⟨p, by rw [Refinement.run], h⟩
    | cons anchor worklist =>
      have hanchor := h.scheduled anchor List.mem_cons_self
      obtain ⟨members, hm⟩ : ∃ members, p.classes.get? anchor = some members :=
        ⟨_, (h.classes anchor _).2 ⟨hanchor, rfl⟩⟩
      have hlt := h.distance_check_lt hm
      simp only [Refinement.run, hm]
      exact ih (h.check hm) (by omega)

theorem get?_start (c : Codes) (n : String) :
    (Refinement.start c.names).representatives.get? n =
      if n ∈ c.names then some Text.unitName else none := by
  have hkeys : ((c.names.map (·, Text.unitName)).map (·.1)).Nodup := by
    rw [List.map_map]
    exact (List.map_id c.names).symm ▸ c.nodup_names
  rw [Refinement.start, NameMap.get?_ofList hkeys, NameMap.lookup_map_mk]

theorem unitName_mem_names (c : Codes) : Text.unitName ∈ c.names :=
  mem_names_iff.2 c.contains_withUnit_unitName

theorem refining_start (c : Codes) : c.Refining (.start c.names) where
  contains n := by simp [NameMap.contains, get?_start]
  unit := by simp [get?_start, unitName_mem_names]
  idem n a hn := by
    simp only [get?_start, Option.ite_none_right_eq_some, Option.some.injEq] at hn ⊢
    exact ⟨hn.2 ▸ c.unitName_mem_names, hn.2⟩
  le n a hn := by
    simp only [get?_start, Option.ite_none_right_eq_some, Option.some.injEq] at hn
    exact .inl hn.2.symm
  classes a ms := by
    have hall : c.names.filter (fun n =>
        (Refinement.start c.names).representatives.get? n = some Text.unitName) = c.names :=
      List.filter_eq_self.2 fun n hn => by simp [get?_start, hn]
    have hclasses : (Refinement.start c.names).classes.get? a = some ms ↔
      a = Text.unitName ∧ c.names = ms := NameMap.get?_ofList_singleton
    rw [hclasses]
    constructor
    · rintro ⟨rfl, rfl⟩
      exact ⟨by simp [get?_start, unitName_mem_names], hall.symm⟩
    · rintro ⟨ha, rfl⟩
      simp only [get?_start, Option.ite_none_right_eq_some, Option.some.injEq] at ha
      obtain rfl := ha.2
      exact ⟨rfl, hall.symm⟩
  coarse a b hab := by
    have hmem : a ∈ c.names ↔ b ∈ c.names := by rw [mem_names_iff, mem_names_iff, hab.contains_iff]
    simp only [Refinement.rep, NameMap.getD, get?_start, hmem]
    split_ifs with hb
    · rfl
    · rw [← hmem, mem_names_iff] at hb
      exact (hab.eq_of_get?_none (NameMap.get?_eq_none_iff.2 hb)).1
  nodup := List.nodup_singleton _
  scheduled a ha := by
    obtain rfl := List.mem_singleton.1 ha
    simp [get?_start, unitName_mem_names]
  stable n a hn ha := by
    simp only [get?_start, Option.ite_none_right_eq_some, Option.some.injEq] at hn
    exact absurd (List.mem_singleton.2 hn.2.symm) ha

theorem distance_start (c : Codes) :
    c.distance (.start c.names) ≤ c.names.length * c.names.length := by
  have hunit : Text.unitName ∈ c.anchors (Refinement.start c.names).toPartition :=
    c.refining_start.mem_anchors_iff.2 c.refining_start.unit
  have hpos := Finset.card_pos.2 ⟨_, hunit⟩
  have hlength : 0 < c.names.length := List.length_pos_of_mem c.unitName_mem_names
  unfold distance
  generalize (c.anchors (Refinement.start c.names).toPartition).card = count at hpos ⊢
  have hmul := Nat.mul_le_mul_right (c.names.length + 1)
    (by omega : c.names.length - count + 1 ≤ c.names.length)
  rw [Nat.succ_mul, Nat.mul_succ c.names.length] at hmul
  simp only [Refinement.start, List.length_singleton]
  omega

end Rounds

section Result

/-- Where nothing is scheduled, having one representative is a bisimulation. -/
theorem Refining.isBisimulation (h : c.Refining ⟨p, []⟩) :
    c.withUnit.IsBisimulation c.withUnit fun a b =>
      p.representatives.getD a a = p.representatives.getD b b := by
  have hrep {n : String} (hn : n ∈ c.names) :
      p.representatives.get? n = some (p.representatives.getD n n) := by
    obtain ⟨a, ha⟩ := NameMap.contains_iff.1 ((h.contains n).2 hn)
    rw [ha, NameMap.getD, ha, Option.getD_some]
  have hself : ∀ {n}, n ∉ c.names → p.representatives.getD n n = n := by
    intro n hn
    rw [← h.contains, ← NameMap.get?_eq_none_iff] at hn
    rw [NameMap.getD, hn, Option.getD_none]
  intro a b hab
  by_cases ha : a ∈ c.names
  · have hb : b ∈ c.names := by
      by_contra hb
      rw [hself hb] at hab
      exact hb (hab ▸ h.mem_names (h.idem a _ (hrep ha)))
    have hanchor := h.mem_names (h.idem a _ (hrep ha))
    have hagree := differs_eq_false_iff.1 (h.stable a _ (hrep ha) List.not_mem_nil)
    have hagree' := differs_eq_false_iff.1 (h.stable b _ (hrep hb) List.not_mem_nil)
    rw [← hab] at hagree'
    refine .of_some (get?_withUnit_of_mem_names ha) (get?_withUnit_of_mem_names hb) ?_
    refine (hagree.flip.comp hagree').imp ?_
    rintro u - v - ⟨w, hwu, hwv⟩
    exact hwu.symm.trans hwv
  · have hb : b ∉ c.names := by
      intro hb
      rw [hself ha] at hab
      exact ha (hab ▸ h.mem_names (h.idem b _ (hrep hb)))
    rw [hself ha, hself hb] at hab
    subst hab
    rw [mem_names_iff] at ha
    exact .of_none (NameMap.get?_eq_none_iff.2 ha) (NameMap.get?_eq_none_iff.2 ha)

/-- Where nothing is scheduled, names are represented alike exactly if they are bisimilar. -/
theorem Refining.rep_eq_iff (h : c.Refining ⟨p, []⟩) :
    p.representatives.getD a a = p.representatives.getD b b ↔
      c.withUnit.Bisimilar c.withUnit a b :=
  ⟨fun hab => ⟨_, h.isBisimulation, hab⟩, h.coarse a b⟩

/-- The name that stands for a name: the unit name for those that are bisimilar to it, and the least
bisimilar name for the others. -/
structure Represents (c : Codes) (a n : String) : Prop where
  bisimilar : c.withUnit.Bisimilar c.withUnit n a
  first : a = Text.unitName ∨ ¬c.withUnit.Bisimilar c.withUnit n Text.unitName ∧
    ∀ m, c.withUnit.Bisimilar c.withUnit n m → a ≤ m

theorem Represents.unique (ha : c.Represents a n) (hb : c.Represents b n) : a = b := by
  obtain ⟨han, ha⟩ := ha
  obtain ⟨hbn, hb⟩ := hb
  rcases ha with rfl | ⟨hnot, ha⟩ <;> rcases hb with rfl | ⟨hnot', hb⟩
  · rfl
  · exact absurd han hnot'
  · exact absurd hbn hnot
  · exact String.le_antisymm (ha b hbn) (hb a han)

theorem Refining.represents (h : c.Refining ⟨p, []⟩) (hn : p.representatives.get? n = some a) :
    c.Represents a n := by
  have hrep : ∀ {n a}, p.representatives.get? n = some a → p.representatives.getD n n = a := by
    intro n a hn
    rw [NameMap.getD, hn, Option.getD_some]
  refine ⟨h.rep_eq_iff.1 ((hrep hn).trans (hrep (h.idem n a hn)).symm), ?_⟩
  by_cases ha : a = Text.unitName
  · exact .inl ha
  · refine .inr ⟨fun hunit => ha ?_, fun m hm => ?_⟩
    · rw [← hrep hn, h.rep_eq_iff.2 hunit, hrep h.unit]
    · have hin : c.withUnit.contains m := hm.contains_iff.1 (mem_names_iff.1 (h.mem_names hn))
      obtain ⟨b, hb⟩ := NameMap.contains_iff.1 ((h.contains m).2 (mem_names_iff.2 hin))
      obtain rfl : a = b := by rw [← hrep hn, h.rep_eq_iff.2 hm, hrep hb]
      exact (h.le m a hb).resolve_left ha

theorem pairwise_nodes (c : Codes) : c.nodes.Pairwise fun a b => a = Text.unitName ∨ a ≤ b := by
  refine List.pairwise_cons.2 ⟨fun _ _ => .inl rfl, ?_⟩
  have hkeys : c.keys.Pairwise (· < ·) := List.pairwise_map.2 c.ascending
  exact (hkeys.filter _).imp fun h => .inr (String.not_lt.1 (String.lt_asymm h))

/-- The first name with the same tree comes before the others. -/
theorem anchor_le (hn : c.withUnit.contains n) : c.anchor n = Text.unitName ∨ c.anchor n ≤ n := by
  obtain ⟨i, hi⟩ := exists_node hn
  have hanchor := getElem?_anchor hi
  obtain ⟨hlt, hin⟩ := List.getElem?_eq_some_iff.1 hi
  obtain ⟨hlt', hin'⟩ := List.getElem?_eq_some_iff.1 hanchor
  have hle := c.system.coarsest_isNumbering.le i (by rwa [system_size])
  rcases Nat.lt_or_eq_of_le hle with hlt | heq
  · have hpair := List.pairwise_iff_getElem.1 c.pairwise_nodes _ _ hlt' ‹_› hlt
    rwa [hin, hin'] at hpair
  · rw [heq, hi] at hanchor
    exact .inr (Option.some.inj hanchor ▸ String.le_refl n)

theorem anchor_unitName (c : Codes) : c.anchor Text.unitName = Text.unitName := by
  have hi : c.nodes[0]? = some Text.unitName := rfl
  have hlt : 0 < c.system.size := by
    rw [system_size]
    exact List.length_pos_of_mem (List.mem_of_getElem? hi)
  have hzero := Nat.le_zero.1 (c.system.coarsest_isNumbering.le 0 hlt)
  have hanchor := getElem?_anchor hi
  rw [hzero, hi] at hanchor
  exact (Option.some.inj hanchor).symm

theorem represents_anchor (hn : c.withUnit.contains n) : c.Represents (c.anchor n) n := by
  refine ⟨bisimilar_anchor c n, ?_⟩
  by_cases ha : c.anchor n = Text.unitName
  · exact .inl ha
  · refine .inr ⟨fun hunit => ha (hunit.anchor_eq.trans c.anchor_unitName), fun m hm => ?_⟩
    rw [hm.anchor_eq] at ha ⊢
    exact (anchor_le (hm.contains_iff.1 hn)).resolve_left ha

theorem get?_classes_partition (c : Codes) (a : String) : c.partition.classes.get? a =
    if a ∈ c.names.filter (fun n => c.partition.representatives.get? n = some n) then
      some (c.names.filter (c.partition.representatives.get? · = some a)) else none := by
  have hkeys : (((c.names.filter fun n => c.partition.representatives.get? n = some n).map fun a =>
      (a, c.names.filter (c.partition.representatives.get? · = some a))).map (·.1)).Nodup := by
    rw [List.map_map]
    exact (List.map_id _).symm ▸ c.nodup_names.filter _
  exact (NameMap.get?_ofList hkeys).trans (NameMap.lookup_map_mk _ _)

theorem Refining.eq_partition (h : c.Refining ⟨p, []⟩) : p = c.partition := by
  have hreps : p.representatives = c.partition.representatives := by
    ext n : 1
    by_cases hn : c.withUnit.contains n
    · obtain ⟨a, ha⟩ := NameMap.contains_iff.1 ((h.contains n).2 (mem_names_iff.2 hn))
      rw [ha, get?_representatives_of_contains hn,
        (h.represents ha).unique (represents_anchor hn)]
    · rw [get?_representatives_of_not_contains hn, NameMap.get?_eq_none_iff, h.contains,
        mem_names_iff]
      exact hn
  have hclasses : p.classes = c.partition.classes := by
    apply NameMap.ext
    intro a
    ext ms
    rw [h.classes, get?_classes_partition, hreps, Option.ite_none_right_eq_some, Option.some.injEq,
      List.mem_filter, decide_eq_true_eq, eq_comm (a := ms), ← hreps]
    exact ⟨fun ⟨ha, hms⟩ => ⟨⟨h.mem_names ha, ha⟩, hms⟩, fun ⟨⟨_, ha⟩, hms⟩ => ⟨ha, hms⟩⟩
  obtain ⟨classes, representatives⟩ := p
  simp only at hreps hclasses
  rw [hreps, hclasses]

theorem run_eq (c : Codes) :
    Refinement.run c c.referrers (c.names.length * c.names.length) (.start c.names) =
      .ok c.partition := by
  obtain ⟨p, hrun, h⟩ := c.refining_start.exists_run c.distance_start
  rw [hrun, h.eq_partition]

/-- The worklist finds the classes of names with the same tree. -/
theorem minimize_eq (c : Codes) : c.minimize = do
    c.checkReferences
    return c.partition := by
  simp only [minimize, run_eq]
  rfl

end Result

section References

/-- The code of a name refers to what is no builtin, not the unit name and no name of the map. -/
def Dangling (c : Codes) (name r : String) : Prop :=
  ∃ code, c.get? name = some code ∧ r ∈ code.refs ∧
    ¬Text.isBuiltin r ∧ r ≠ Text.unitName ∧ ¬c.contains r

theorem isKnown_iff : c.isKnown r ↔ Text.isBuiltin r ∨ r = Text.unitName ∨ c.contains r := by
  simp [isKnown, or_assoc]

theorem checkReferences_cases (c : Codes) :
    (∃ name r, c.Dangling name r ∧ c.checkReferences = .error (.unknownCode r (some name))) ∨
      (∀ name r, ¬c.Dangling name r) ∧ c.checkReferences = .ok () := by
  refine (forM_cases _ c.entries).imp ?_ fun ⟨hall, hok⟩ => ⟨?_, hok⟩
  · rintro ⟨⟨name, code⟩, hmem, e, he, herror⟩
    cases hfind : code.refs.find? (!c.isKnown ·) with
    | none => simp [hfind] at he
    | some r =>
      simp only [hfind, Except.error.injEq] at he
      have hunknown : ¬c.isKnown r := by simpa using List.find?_some hfind
      simp only [isKnown_iff, not_or] at hunknown
      exact ⟨name, r, ⟨code, NameMap.get?_eq_some_iff.2 hmem, List.mem_of_find?_eq_some hfind,
        hunknown⟩, he ▸ herror⟩
  · rintro name r ⟨code, hcode, hr, hunknown⟩
    have hentry := hall _ (NameMap.get?_eq_some_iff.1 hcode)
    cases hfind : code.refs.find? (!c.isKnown ·) with
    | none =>
      have hknown : c.isKnown r := by simpa using List.find?_eq_none.1 hfind r hr
      simp only [isKnown_iff] at hknown
      tauto
    | some r => simp [hfind] at hentry

theorem Closed.not_dangling (hc : c.Closed) {name : String} : ¬c.Dangling name r := by
  rintro ⟨code, hcode, hr, hbuiltin, -, hcontains⟩
  exact (hc.refs name code hcode r hr).elim hbuiltin hcontains

theorem minimize_eq_ok (hc : c.Closed) : c.minimize = .ok c.partition := by
  rcases c.checkReferences_cases with ⟨name, r, hdangling, -⟩ | ⟨-, hok⟩
  · exact absurd hdangling hc.not_dangling
  · simp only [minimize_eq, hok]
    rfl

theorem eq_of_ascending {l l' : List String} (h : l.Pairwise (· < ·)) (h' : l'.Pairwise (· < ·))
    (hmem : ∀ n, n ∈ l ↔ n ∈ l') : l = l' :=
  List.Perm.eq_of_pairwise (fun _ _ _ _ hlt hgt => absurd hgt (String.lt_asymm hlt)) h h'
    ((List.perm_ext_iff_of_nodup (h.imp String.ne_of_lt) (h'.imp String.ne_of_lt)).2 hmem)

/-- Minimization fails for a reference that leads nowhere and for nothing else. Otherwise every name
is represented by the unit name or the least name that unfolds to the same tree, where a name
without a code unfolds to itself, and the classes list what each representative stands for. -/
theorem minimize_bisimilarity (c : Codes) :
    (∃ name r, c.Dangling name r ∧ c.minimize = .error (.unknownCode r (some name))) ∨
      (∀ name r, ¬c.Dangling name r) ∧ ∃ p, c.minimize = .ok p ∧
        (∀ n a, p.representatives.get? n = some a ↔ c.withUnit.contains n ∧ c.Represents a n) ∧
        ∀ a members, p.classes.get? a = some members ↔ p.representatives.get? a = some a ∧
          members.Pairwise (· < ·) ∧ ∀ n, n ∈ members ↔ p.representatives.get? n = some a := by
  refine c.checkReferences_cases.imp ?_ fun ⟨hall, hok⟩ => ⟨hall, ?_⟩
  · rintro ⟨name, r, hdangling, herror⟩
    refine ⟨name, r, hdangling, ?_⟩
    simp only [minimize, herror]
    rfl
  · obtain ⟨p, hrun, h⟩ := c.refining_start.exists_run c.distance_start
    refine ⟨p, ?_, fun n a => ⟨fun hn => ?_, ?_⟩, fun a members => ?_⟩
    · simp only [minimize, hok, hrun]
      rfl
    · exact ⟨mem_names_iff.1 (h.mem_names hn), h.represents hn⟩
    · rintro ⟨hn, ha⟩
      obtain ⟨b, hb⟩ := NameMap.contains_iff.1 ((h.contains n).2 (mem_names_iff.2 hn))
      rw [hb, (h.represents hb).unique ha]
    · have hmem : ∀ n, n ∈ c.names.filter (p.representatives.get? · = some a) ↔
          p.representatives.get? n = some a := by
        intro n
        rw [List.mem_filter, decide_eq_true_eq, and_iff_right_iff_imp]
        exact h.mem_names
      rw [h.classes]
      refine and_congr_right fun _ => ⟨?_, fun ⟨hascending, hmembers⟩ => ?_⟩
      · rintro rfl
        exact ⟨c.names_ascending.filter _, hmem⟩
      · exact eq_of_ascending hascending (c.names_ascending.filter _) fun n =>
          (hmembers n).trans (hmem n).symm

end References

end Codes

end StructuralTyping
