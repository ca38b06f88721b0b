import StructuralTyping.Proofs.BreadthFirst

/-!
# Explorations in step

Two maps are explored in step under a one-to-one relation of names that pairs builtins with
themselves and other names with names whose codes are alike in it: corresponding names are met,
skipped and numbered alike. In reduced maps bisimilarity is such a relation.
-/
namespace StructuralTyping.Codes
open List (Forall₂)

/-- A one-to-one relation of names under which the maps cannot be told apart. -/
structure InStep (c d : Codes) (r : String → String → Prop) : Prop where
  biUnique : Relator.BiUnique r
  isBuiltin_eq : ∀ {a b}, r a b → Text.isBuiltin a = Text.isBuiltin b
  eq_of_isBuiltin : ∀ {a b}, r a b → Text.isBuiltin a → a = b
  code : ∀ {a b x}, r a b → ¬Text.isBuiltin a → c.get? a = some x →
    ∃ y, d.get? b = some y ∧ x.Alike r y

variable {c d : Codes} {a b : String} {done queue order o p : List String}
  {r : String → String → Prop}

section Reduced

theorem Reduced.eq (hc : c.Reduced) (h : c.Bisimilar c a b) : a = b := by
  by_cases ha : c.contains a
  · exact hc a b ha (h.contains_iff.1 ha) h
  · exact (h.eq_of_get?_none (NameMap.get?_eq_none_iff.2 ha)).1

theorem Bisimilar.isBuiltin_eq (hc : c.Closed) (hd : d.Closed) (h : c.Bisimilar d a b) :
    Text.isBuiltin a = Text.isBuiltin b := by
  by_cases ha : c.contains a
  · have hb := h.contains_iff.1 ha
    rw [Bool.eq_false_iff.2 (hc.names a ha), Bool.eq_false_iff.2 (hd.names b hb)]
  · rw [(h.eq_of_get?_none (NameMap.get?_eq_none_iff.2 ha)).1]

theorem Reduced.inStep (hrc : c.Reduced) (hrd : d.Reduced) (hc : c.Closed) (hd : d.Closed) :
    c.InStep d (c.Bisimilar d) where
  biUnique := ⟨fun _ _ _ h h' => hrc.eq (h.trans h'.symm),
    fun _ _ _ h h' => hrd.eq (h.symm.trans h')⟩
  isBuiltin_eq h := h.isBuiltin_eq hc hd
  eq_of_isBuiltin h ha :=
    (h.eq_of_get?_none (NameMap.get?_eq_none_iff.2 fun hin => hc.names _ hin ha)).1
  code h _ hx := h.exists_code hx

end Reduced

section Lists

theorem forall₂_eraseDups (hr : Relator.BiUnique r) (h : Forall₂ r o p) :
    Forall₂ r o.eraseDups p.eraseDups := by
  -- The tail is filtered before its turn, so the induction is on the length.
  induction hlen : o.length using Nat.strong_induction_on generalizing o p with
  | _ k ih =>
    cases h with
    | nil => simp
    | @cons u v us vs huv hrest =>
      rw [List.eraseDups_cons, List.eraseDups_cons]
      refine .cons huv (ih _ ?_ (List.rel_filter ?_ hrest) rfl)
      · rw [← hlen]
        exact Nat.lt_succ_of_le (List.length_filter_le _ _)
      · intro x y hxy
        have heq : x = u ↔ y = v := Relator.rel_eq hr hxy huv
        simp [heq]

theorem idxOf_eq_of_forall₂ (hr : Relator.BiUnique r) (h : Forall₂ r o p) (hab : r a b) :
    o.idxOf a = p.idxOf b := by
  induction h with
  | nil => rfl
  | @cons u v us vs huv _ ih =>
    have heq : u = a ↔ v = b := Relator.rel_eq hr huv hab
    by_cases hu : u = a
    · simp [hu, heq.1 hu]
    · have hv : v ≠ b := fun hv => hu (heq.2 hv)
      simp [hu, hv, ih]

end Lists

namespace InStep
variable (h : c.InStep d r)
include h

theorem forall₂_fresh {x y : Code String} (hmet : Forall₂ r o p) (hxy : x.Alike r y) :
    Forall₂ r (fresh o x) (fresh p y) := by
  refine forall₂_eraseDups h.biUnique (List.rel_filter ?_ (Code.alike_iff.1 hxy).2)
  intro u v huv
  have hmem : u ∈ o ↔ v ∈ p := List.rel_mem h.biUnique huv hmet
  simp [h.isBuiltin_eq huv, hmem]

/-- Explorations that start at corresponding names stay in step. -/
theorem explore {fuel fuel' : Nat} {done' queue' order' : List String}
    (hdone : Forall₂ r done done') (hqueue : Forall₂ r queue queue')
    (hnames : ∀ n ∈ queue, ¬Text.isBuiltin n) (hok : c.explore fuel done queue = .ok order)
    (hok' : d.explore fuel' done' queue' = .ok order') : Forall₂ r order order' := by
  induction fuel generalizing fuel' done queue done' queue' with
  | zero =>
    cases hqueue with
    | nil =>
      simp only [Codes.explore, Except.ok.injEq] at hok hok'
      rwa [← hok, ← hok']
    | cons => simp [Codes.explore] at hok
  | succ fuel ih =>
    cases hqueue with
    | nil =>
      simp only [Codes.explore, Except.ok.injEq] at hok hok'
      rwa [← hok, ← hok']
    | @cons n n' queue queue' hn hrest =>
      cases fuel' with
      | zero => simp [Codes.explore] at hok'
      | succ fuel' =>
        cases hx : c.get? n with
        | none => simp [Codes.explore, hx] at hok
        | some x =>
          obtain ⟨y, hy, hxy⟩ := h.code hn (hnames n List.mem_cons_self) hx
          rw [explore_cons hx] at hok
          rw [explore_cons hy] at hok'
          have hmet := List.rel_append hdone (.cons hn hrest)
          refine ih (List.rel_append hdone (.cons hn .nil)) ?_ ?_ hok hok'
          · exact List.rel_append hrest (h.forall₂_fresh hmet hxy)
          · intro m hm
            rcases List.mem_append.1 hm with hm | hm
            · exact hnames m (List.mem_cons_of_mem _ hm)
            · exact (mem_fresh.1 hm).2.1

theorem mark_eq (hop : Forall₂ r o p) (hab : r a b) : mark o a = mark p b := by
  have hbuiltin := h.isBuiltin_eq hab
  unfold mark
  by_cases ha : Text.isBuiltin a
  · obtain rfl := h.eq_of_isBuiltin hab ha
    rw [dif_pos ha, dif_pos ha]
  · rw [dif_neg ha, dif_neg (hbuiltin ▸ ha), idxOf_eq_of_forall₂ h.biUnique hop hab]

/-- Orders of corresponding names list the same numbered codes. -/
theorem definitions_eq (hop : Forall₂ r o p) (hknown : ∀ n ∈ o, c.contains n)
    (hnames : ∀ n ∈ o, ¬Text.isBuiltin n) : c.definitions o = d.definitions p := by
  unfold definitions
  rw [← List.forall₂_eq_eq_eq, List.forall₂_map_left_iff, List.forall₂_map_right_iff]
  have hop' := hop
  rw [List.forall₂_iff_get] at hop' ⊢
  refine ⟨hop'.1, fun i hi hj => ?_⟩
  have hab := hop'.2 i hi hj
  have hin := List.get_mem o ⟨i, hi⟩
  obtain ⟨x, hx⟩ := NameMap.contains_iff.1 (hknown _ hin)
  obtain ⟨y, hy, hxy⟩ := h.code hab (hnames _ hin) hx
  rw [Prod.mk.injEq]
  refine ⟨idxOf_eq_of_forall₂ h.biUnique hop hab, ?_⟩
  simp only [NameMap.getD, hx, hy, Option.getD_some, Code.map_eq_map_iff]
  exact hxy.imp fun u _ v _ huv => h.mark_eq hop huv

end InStep

end StructuralTyping.Codes
