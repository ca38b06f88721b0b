import StructuralTyping.Code.Canonical
import StructuralTyping.Proofs.CoarsestPartition
import StructuralTyping.Proofs.TreeEquality

/-!
# The quotient of a map of codes by tree equality

The names of a map are numbered, and the partition of the numbers is refined. Its classes are the
classes of bisimilar names, where the unit name has the empty product unless it is declared, and the
anchor of a name is the same for all names of its class. Normalizing with the anchors yields a map
in which every name of the original still has its tree, and no tree has two names.
-/
namespace StructuralTyping.Codes

/-- No name is a builtin, and every reference is a builtin or a name of the map. -/
structure Closed (codes : Codes) : Prop where
  names : ∀ n, codes.contains n → ¬Text.isBuiltin n
  refs : ∀ n code, codes.get? n = some code → ∀ r ∈ code.refs, Text.isBuiltin r ∨ codes.contains r

/-- No two names unfold to the same tree. -/
def Reduced (codes : Codes) : Prop :=
  ∀ a b, codes.contains a → codes.contains b → codes.Bisimilar codes a b → a = b

/-- The names to be partitioned, the unit name first and the others in ascending order. -/
def nodes (codes : Codes) : List String :=
  Text.unitName :: codes.keys.filter (· ≠ Text.unitName)

/-- A code shows its constructor, its labels and the references that lead out of the map. -/
def system (codes : Codes) : System (Code (Option String)) :=
  let names := codes.nodes.toArray
  let code (i : Nat) : Code String := codes.codeOf (names[i]?.getD Text.unitName)
  let heads := (Array.range names.size).map fun i =>
    (code i).map fun r => if r ∈ names then none else some r
  let next := (Array.range names.size).map fun i => (code i).refs.filterMap (names.idxOf? ·)
  { size := names.size
    head := fun i => heads[i]?.getD .unit
    next := fun i => next[i]?.getD [] }

/-- The partition in which every name is represented by the first one with its tree. -/
def partition (codes : Codes) : Partition :=
  let names := codes.nodes.toArray
  let classes := codes.system.coarsest
  let representatives : NameMap String :=
    .ofList (names.toList.zip (classes.toList.map fun i => names[i]?.getD Text.unitName))
  { classes := .ofList ((codes.names.filter fun n => representatives.get? n = some n).map
      fun a => (a, codes.names.filter (representatives.get? · = some a)))
    representatives }

/-- The representative of a name; a name outside the map represents itself. -/
def anchor (codes : Codes) (name : String) : String :=
  codes.partition.representatives.getD name name

/-- One code for each class. -/
def reduct (codes : Codes) : Codes := codes.normalize codes.partition.representatives

variable {c : Codes} {a b n : String} {i j : Nat}

section Unit

theorem withUnit_of_contains (h : c.contains Text.unitName) : c.withUnit = c := by
  simp [withUnit, h]

theorem get?_withUnit (c : Codes) (h : n ≠ Text.unitName) : c.withUnit.get? n = c.get? n := by
  unfold withUnit
  split_ifs
  · rfl
  · simp [NameMap.get?_insert, h]

theorem contains_withUnit_unitName (c : Codes) : c.withUnit.contains Text.unitName := by
  unfold withUnit
  split_ifs with h
  · exact h
  · simp [NameMap.contains_insert]

@[simp] theorem withUnit_withUnit (c : Codes) : c.withUnit.withUnit = c.withUnit :=
  withUnit_of_contains (contains_withUnit_unitName c)

theorem contains_withUnit : c.withUnit.contains n ↔ n = Text.unitName ∨ c.contains n := by
  by_cases h : n = Text.unitName
  · simp [h, contains_withUnit_unitName]
  · simp [NameMap.contains, get?_withUnit c h, h]

theorem mem_nodes_iff : n ∈ c.nodes ↔ c.withUnit.contains n := by
  rw [contains_withUnit]
  by_cases h : n = Text.unitName <;> simp [nodes, h, NameMap.mem_keys_iff]

theorem nodup_nodes (c : Codes) : c.nodes.Nodup := by
  rw [nodes, List.nodup_cons]
  exact ⟨by simp, c.nodup_keys.filter _⟩

theorem get?_withUnit_eq_codeOf (h : n ∈ c.nodes) : c.withUnit.get? n = some (c.codeOf n) := by
  unfold codeOf NameMap.getD withUnit
  rw [mem_nodes_iff, contains_withUnit] at h
  split_ifs with hu
  · obtain ⟨x, hx⟩ : ∃ x, c.get? n = some x := by
      rcases h with rfl | h
      · exact NameMap.contains_iff.1 hu
      · exact NameMap.contains_iff.1 h
    simp [hx]
  · rw [NameMap.get?_insert]
    by_cases hn : n = Text.unitName
    · simp [hn, NameMap.get?_eq_none_iff.2 hu]
    · obtain ⟨x, hx⟩ := NameMap.contains_iff.1 (h.resolve_left hn)
      simp [hn, hx]

end Unit

section Numbering

/-- A reference as it shows in the head of a node: those inside the map are hidden. -/
def outer (c : Codes) (r : String) : Option String := if r ∈ c.nodes then none else some r

theorem system_size (c : Codes) : c.system.size = c.nodes.length := by simp [system]

theorem system_head (hi : c.nodes[i]? = some a) : c.system.head i = (c.codeOf a).map c.outer := by
  obtain ⟨hlt, rfl⟩ := List.getElem?_eq_some_iff.1 hi
  simp only [system, List.size_toArray, Array.getElem?_map, Array.getElem?_range, hlt, if_true]
  simp [hlt]
  rfl

theorem system_next (hi : c.nodes[i]? = some a) :
    c.system.next i = (c.codeOf a).refs.filterMap (c.nodes.idxOf? ·) := by
  obtain ⟨hlt, rfl⟩ := List.getElem?_eq_some_iff.1 hi
  simp [system, hlt]

theorem getElem?_of_idxOf? (h : c.nodes.idxOf? a = some i) : c.nodes[i]? = some a := by
  obtain ⟨hlt, hget, -⟩ := List.idxOf?_eq_some_iff.1 h
  exact List.getElem?_eq_some_iff.2 ⟨hlt, hget⟩

theorem idxOf?_of_getElem? (h : c.nodes[i]? = some a) : c.nodes.idxOf? a = some i := by
  obtain ⟨hlt, rfl⟩ := List.getElem?_eq_some_iff.1 h
  refine List.idxOf?_eq_some_iff.2 ⟨hlt, rfl, fun k hk hsame => ?_⟩
  have hsame' : k = i := c.nodup_nodes.getElem_inj_iff.1 hsame
  omega

theorem exists_idxOf? (h : a ∈ c.nodes) : ∃ i, c.nodes.idxOf? a = some i :=
  Option.isSome_iff_exists.1 (by simpa using h)

theorem system_isClosed (c : Codes) : c.system.IsClosed := by
  intro i hi j hj
  rw [system_size] at hi ⊢
  rw [system_next (List.getElem?_eq_getElem hi), List.mem_filterMap] at hj
  obtain ⟨r, -, hr⟩ := hj
  exact (List.getElem?_eq_some_iff.1 (getElem?_of_idxOf? hr)).1

/-- References with related numbers, and equal references without a number. -/
def Numbered (c : Codes) (r : Nat → Nat → Prop) (a b : String) : Prop :=
  match c.nodes.idxOf? a, c.nodes.idxOf? b with
  | some i, some j => r i j
  | none, none => a = b
  | _, _ => False

theorem outer_eq (c : Codes) (a : String) :
    c.outer a = if (c.nodes.idxOf? a).isSome then none else some a := by
  simp [outer]

theorem forall₂_numbered_iff {r : Nat → Nat → Prop} {us vs : List String} :
    List.Forall₂ (c.Numbered r) us vs ↔ us.map c.outer = vs.map c.outer ∧
      List.Forall₂ r (us.filterMap (c.nodes.idxOf? ·)) (vs.filterMap (c.nodes.idxOf? ·)) := by
  induction us generalizing vs with
  | nil => cases vs <;> simp
  | cons u us ih =>
    cases vs with
    | nil => simp
    | cons v vs =>
      rw [List.forall₂_cons, ih, List.map_cons, List.map_cons, List.cons.injEq, outer_eq, outer_eq,
        Numbered, List.filterMap_cons, List.filterMap_cons]
      cases c.nodes.idxOf? u <;> cases c.nodes.idxOf? v <;> simp
      all_goals tauto

/-- Comparing two names is comparing the heads and the successors of their numbers. -/
theorem matches_numbered_iff {r : Nat → Nat → Prop} (hi : c.nodes[i]? = some a)
    (hj : c.nodes[j]? = some b) :
    c.withUnit.Matches c.withUnit (c.Numbered r) a b ↔
      c.system.head i = c.system.head j ∧
        List.Forall₂ r (c.system.next i) (c.system.next j) := by
  have hx := get?_withUnit_eq_codeOf (List.mem_of_getElem? hi)
  have hy := get?_withUnit_eq_codeOf (List.mem_of_getElem? hj)
  simp only [Matches, hx, hy]
  rw [system_head hi, system_head hj, system_next hi, system_next hj, Code.map_eq_map_iff,
    Code.alike_iff, Code.alike_iff, forall₂_numbered_iff, ← List.forall₂_eq_eq_eq,
    List.forall₂_map_left_iff, List.forall₂_map_right_iff, and_assoc]

theorem numbered_isBisimulation {r : Nat → Nat → Prop} (hr : c.system.IsBisimulation r) :
    c.withUnit.IsBisimulation c.withUnit (c.Numbered r) := by
  intro a b hab
  have hnum := hab
  unfold Numbered at hnum
  split at hnum
  case h_1 i j hi hj =>
    rw [matches_numbered_iff (getElem?_of_idxOf? hi) (getElem?_of_idxOf? hj),
      List.forall₂_iff_zip]
    obtain ⟨hhead, hlen, hnext⟩ := hr i j hnum
    exact ⟨hhead, hlen, fun h => hnext _ h⟩
  case h_2 ha _ =>
    subst hnum
    rw [List.idxOf?_eq_none_iff, mem_nodes_iff] at ha
    have hnone := NameMap.get?_eq_none_iff.2 ha
    exact .of_none hnone hnone
  case h_3 => exact hnum.elim

theorem Bisimilar.numbered (h : c.withUnit.Bisimilar c.withUnit a b) :
    c.Numbered (fun i j => ∃ a b, c.nodes[i]? = some a ∧ c.nodes[j]? = some b ∧
      c.withUnit.Bisimilar c.withUnit a b) a b := by
  have hmem : a ∈ c.nodes ↔ b ∈ c.nodes := by rw [mem_nodes_iff, mem_nodes_iff, h.contains_iff]
  unfold Numbered
  by_cases ha : a ∈ c.nodes
  · obtain ⟨i, hi⟩ := exists_idxOf? ha
    obtain ⟨j, hj⟩ := exists_idxOf? (hmem.1 ha)
    rw [hi, hj]
    exact ⟨a, b, getElem?_of_idxOf? hi, getElem?_of_idxOf? hj, h⟩
  · rw [List.idxOf?_eq_none_iff.2 ha, List.idxOf?_eq_none_iff.2 (fun hb => ha (hmem.2 hb))]
    rw [mem_nodes_iff] at ha
    exact (h.eq_of_get?_none (NameMap.get?_eq_none_iff.2 ha)).1

theorem bisimilar_isBisimulation (c : Codes) :
    c.system.IsBisimulation fun i j => ∃ a b, c.nodes[i]? = some a ∧ c.nodes[j]? = some b ∧
      c.withUnit.Bisimilar c.withUnit a b := by
  rintro i j ⟨a, b, hi, hj, hab⟩
  have hmatch := hab.matches.imp fun _ _ => Bisimilar.numbered
  rw [matches_numbered_iff hi hj, List.forall₂_iff_zip] at hmatch
  exact ⟨hmatch.1, hmatch.2.1, fun p hp => hmatch.2.2 hp⟩

/-- Names are bisimilar exactly if their numbers are. -/
theorem system_bisimilar_iff (hi : c.nodes[i]? = some a) (hj : c.nodes[j]? = some b) :
    c.system.Bisimilar i j ↔ c.withUnit.Bisimilar c.withUnit a b := by
  constructor
  · rintro ⟨r, hr, hij⟩
    refine ⟨c.Numbered r, numbered_isBisimulation hr, ?_⟩
    simpa [Numbered, idxOf?_of_getElem? hi, idxOf?_of_getElem? hj] using hij
  · intro h
    exact ⟨_, bisimilar_isBisimulation c, a, b, hi, hj, h⟩

end Numbering

section Anchors

theorem nodup_keys_zip (c : Codes) (anchors : List String)
    (h : anchors.length = c.nodes.length) : ((c.nodes.zip anchors).map (·.1)).Nodup := by
  rw [List.map_fst_zip (by omega)]
  exact c.nodup_nodes

theorem get?_representatives_eq (c : Codes) (n : String) :
    c.partition.representatives.get? n = NameMap.lookup n (c.nodes.zip
      (c.system.coarsest.toList.map fun i => c.nodes[i]?.getD Text.unitName)) := by
  have hsize : c.system.coarsest.size = c.nodes.length := by
    rw [c.system.coarsest_isNumbering.size, system_size]
  have hnodup := c.nodup_keys_zip
    (c.system.coarsest.toList.map fun i => c.nodes[i]?.getD Text.unitName) (by simpa using hsize)
  rw [← NameMap.get?_ofList hnodup]
  simp [partition]

/-- The representative of a name is the first name of its class. -/
theorem get?_representatives (hi : c.nodes[i]? = some a) :
    c.partition.representatives.get? a = c.nodes[System.classOf c.system.coarsest i]? := by
  have hnum := c.system.coarsest_isNumbering
  rw [system_size] at hnum
  obtain ⟨hlt, rfl⟩ := List.getElem?_eq_some_iff.1 hi
  have hclass := hnum.class_lt hlt
  rw [get?_representatives_eq, List.getElem?_eq_getElem hclass,
    NameMap.lookup_eq_some_iff (c.nodup_keys_zip _ (by simpa using hnum.size))]
  refine List.mem_iff_getElem.2 ⟨i, by simp [hnum.size, hlt], ?_⟩
  have hcoarsest : c.system.coarsest[i]? = some (System.classOf c.system.coarsest i) := by
    simp [System.classOf, hnum.size, hlt]
  obtain ⟨hlt', hval⟩ := Array.getElem?_eq_some_iff.1 hcoarsest
  simp [hval, hclass]

theorem get?_representatives_of_not_contains (h : ¬c.withUnit.contains n) :
    c.partition.representatives.get? n = none := by
  rw [get?_representatives_eq]
  apply NameMap.lookup_eq_none_of_notMem
  intro hmem
  obtain ⟨e, he, rfl⟩ := List.mem_map.1 hmem
  exact h (mem_nodes_iff.1 (List.of_mem_zip he).1)

theorem anchor_of_not_contains (h : ¬c.withUnit.contains n) : c.anchor n = n := by
  simp [anchor, NameMap.getD, get?_representatives_of_not_contains h]

theorem exists_node (h : c.withUnit.contains n) : ∃ i : Nat, c.nodes[i]? = some n :=
  List.mem_iff_getElem?.1 (mem_nodes_iff.2 h)

theorem getElem?_anchor (hi : c.nodes[i]? = some a) :
    c.nodes[System.classOf c.system.coarsest i]? = some (c.anchor a) := by
  have hnum := c.system.coarsest_isNumbering
  rw [system_size] at hnum
  have hclass := hnum.class_lt (List.getElem?_eq_some_iff.1 hi).1
  have hget := get?_representatives hi
  rw [List.getElem?_eq_getElem hclass] at hget ⊢
  simp [anchor, NameMap.getD, hget]

theorem get?_representatives_of_contains (h : c.withUnit.contains n) :
    c.partition.representatives.get? n = some (c.anchor n) := by
  obtain ⟨i, hi⟩ := exists_node h
  rw [get?_representatives hi, getElem?_anchor hi]

theorem bisimilar_anchor (c : Codes) (n : String) :
    c.withUnit.Bisimilar c.withUnit n (c.anchor n) := by
  by_cases h : c.withUnit.contains n
  · obtain ⟨i, hi⟩ := exists_node h
    have hnum := c.system.coarsest_isNumbering
    have hlt : i < c.system.size := system_size c ▸ (List.getElem?_eq_some_iff.1 hi).1
    rw [← system_bisimilar_iff hi (getElem?_anchor hi),
      ← System.coarsest_eq_iff (system_isClosed c) hlt (hnum.class_lt hlt)]
    exact (hnum.idem i hlt).symm
  · rw [anchor_of_not_contains h]
    exact .refl _ n

theorem Bisimilar.anchor_eq (h : c.withUnit.Bisimilar c.withUnit a b) :
    c.anchor a = c.anchor b := by
  by_cases ha : c.withUnit.contains a
  · obtain ⟨i, hi⟩ := exists_node ha
    obtain ⟨j, hj⟩ := exists_node (h.contains_iff.1 ha)
    have hlt : i < c.system.size := system_size c ▸ (List.getElem?_eq_some_iff.1 hi).1
    have hlt' : j < c.system.size := system_size c ▸ (List.getElem?_eq_some_iff.1 hj).1
    have hclass := ((system_bisimilar_iff hi hj).2 h).coarsest_eq (system_isClosed c) hlt hlt'
    have hanchor := getElem?_anchor hi
    rw [hclass, getElem?_anchor hj] at hanchor
    exact (Option.some.inj hanchor).symm
  · rw [(h.eq_of_get?_none (NameMap.get?_eq_none_iff.2 ha)).1]

/-- Names have the same anchor exactly if they unfold to the same tree. -/
theorem anchor_eq_iff : c.anchor a = c.anchor b ↔ c.withUnit.Bisimilar c.withUnit a b := by
  refine ⟨fun h => ?_, Bisimilar.anchor_eq⟩
  have hb := (bisimilar_anchor c b).symm
  rw [← h] at hb
  exact (bisimilar_anchor c a).trans hb

theorem anchor_anchor (c : Codes) (n : String) : c.anchor (c.anchor n) = c.anchor n :=
  (bisimilar_anchor c n).anchor_eq.symm

end Anchors

section Reduct

theorem get?_reduct (c : Codes) (n : String) : c.reduct.get? n =
    ((c.get? n).filter fun _ => c.anchor n = n).map (Code.map c.anchor) := by
  rw [reduct, normalize, NameMap.get?_map, NameMap.get?_filter]
  rfl

theorem contains_reduct : c.reduct.contains n ↔ c.contains n ∧ c.anchor n = n := by
  simp only [NameMap.contains, get?_reduct]
  cases c.get? n <;> simp [Option.filter]

variable (hu : c.contains Text.unitName)
include hu

/-- Every name has its tree in the quotient, under its anchor. -/
theorem bisimilar_reduct (n : String) : c.Bisimilar c.reduct n (c.anchor n) := by
  refine ⟨fun a b => b = c.anchor a, ?_, rfl⟩
  rintro a b rfl
  have hbis := bisimilar_anchor c a
  rw [withUnit_of_contains hu] at hbis
  cases hx : c.get? a with
  | none =>
    obtain ⟨heq, -⟩ := hbis.eq_of_get?_none hx
    rw [← heq]
    exact .of_none hx (by simp [get?_reduct, hx])
  | some x =>
    obtain ⟨y, hy, hxy⟩ := hbis.exists_code hx
    have hz : c.reduct.get? (c.anchor a) = some (y.map c.anchor) := by
      simp [get?_reduct, hy, anchor_anchor, Option.filter]
    refine .of_some hx hz (Code.alike_map_right_iff.2 (hxy.imp fun u _ v _ huv => ?_))
    exact (Bisimilar.anchor_eq (by rwa [withUnit_of_contains hu])).symm

theorem reduct_reduced : c.reduct.Reduced := by
  intro a b ha hb hab
  rw [contains_reduct] at ha hb
  have hna := bisimilar_reduct hu a
  have hnb := bisimilar_reduct hu b
  rw [ha.2] at hna
  rw [hb.2] at hnb
  have hc := (hna.trans hab).trans hnb.symm
  have heq : c.anchor a = c.anchor b := anchor_eq_iff.2 (by rwa [withUnit_of_contains hu])
  rwa [ha.2, hb.2] at heq

theorem reduct_closed (hc : c.Closed) : c.reduct.Closed where
  names n hn := hc.names n (contains_reduct.1 hn).1
  refs n x hx r hr := by
    obtain ⟨y, hy, rfl⟩ := Option.map_eq_some_iff.1 (get?_reduct c n ▸ hx)
    rw [Code.refs_map, List.mem_map] at hr
    obtain ⟨u, hu', rfl⟩ := hr
    rcases hc.refs n y (Option.filter_eq_some_iff.1 hy).1 u hu' with h | h
    · left
      have houtside : ¬c.withUnit.contains u := by
        rw [withUnit_of_contains hu]
        exact fun hin => hc.names u hin h
      rwa [anchor_of_not_contains houtside]
    · right
      exact (bisimilar_reduct hu u).contains_iff.1 h

end Reduct

end StructuralTyping.Codes
