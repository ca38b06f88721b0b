import Mathlib.Data.Finset.Card
import StructuralTyping.Pattern.Forest

/-!
# Classes of patterns

In a forest in which every parent is younger than its children, the path from a node ends at a root,
whatever the bound on its length. Putting a new node above some roots makes one class of theirs and
leaves the other classes as they are, so there are fewer classes than before.
-/
namespace StructuralTyping.PatternForest
variable {f : PatternForest} {kind : PatternKind} {rule : String} {ids : List Nat} {i j p : Nat}

/-- Every parent is a node younger than its children. -/
structure Ordered (f : PatternForest) : Prop where
  parents_size : f.parents.size = f.size
  younger : ∀ i p, f.parent? i = some p → i < p ∧ p < f.size

section Paths

theorem node_of_size_le (h : f.size ≤ i) : f.node i = ⟨.unconstrained, none⟩ := by
  have hnone : f.nodes[i]? = none := Array.getElem?_eq_none h
  simp [node, hnone]

theorem find_of_root (hi : f.parent? i = none) : f.find i = i := by
  rw [find]
  cases f.size with
  | zero => rfl
  | succ n => simp only [climb, hi]

variable (h : f.Ordered)
include h

theorem Ordered.parent?_of_size_le (hi : f.size ≤ i) : f.parent? i = none := by
  have hnone : f.parents[i]? = none := Array.getElem?_eq_none (by rw [h.parents_size]; exact hi)
  simp [parent?, hnone]

theorem Ordered.climb_of_size_le (hi : f.size ≤ i) (fuel : Nat) : f.climb fuel i = i := by
  cases fuel with
  | zero => rfl
  | succ fuel => simp only [climb, h.parent?_of_size_le hi]

/-- Paths end within any bound that takes them past the youngest node. -/
theorem Ordered.climb_eq {m n : Nat} (hm : f.size ≤ i + m) (hn : f.size ≤ i + n) :
    f.climb m i = f.climb n i := by
  induction m generalizing n i with
  | zero =>
    have hi : f.size ≤ i := hm
    rw [h.climb_of_size_le hi, h.climb_of_size_le hi]
  | succ m ih =>
    cases n with
    | zero =>
      have hi : f.size ≤ i := hn
      rw [h.climb_of_size_le hi, h.climb_of_size_le hi]
    | succ n =>
      rw [climb, climb]
      cases hp : f.parent? i with
      | none => rfl
      | some p =>
        have hlt := (h.younger i p hp).1
        exact ih (by omega) (by omega)

theorem Ordered.find_of_parent (hp : f.parent? i = some p) : f.find i = f.find p := by
  have hlt := h.younger i p hp
  have hsize : f.climb f.size i = f.climb (f.size + 1) i := h.climb_eq (by omega) (by omega)
  rw [find, hsize, climb, hp]
  exact h.climb_eq (by omega) (by omega)

/-- What holds of every root, and of a node if it does of its parent, holds of every node. -/
theorem Ordered.induction {motive : Nat → Prop} (root : ∀ i, f.parent? i = none → motive i)
    (step : ∀ i p, f.parent? i = some p → motive p → motive i) (i : Nat) : motive i := by
  generalize hn : f.size - i = n
  induction n using Nat.strongRecOn generalizing i with
  | ind n ih =>
    cases hp : f.parent? i with
    | none => exact root i hp
    | some p =>
      have hlt := h.younger i p hp
      exact step i p hp (ih (f.size - p) (by omega) p rfl)

theorem Ordered.parent?_find (i : Nat) : f.parent? (f.find i) = none := by
  induction i using h.induction with
  | root i hi =>
    rw [find_of_root hi]
    exact hi
  | step i p hp ih =>
    rw [h.find_of_parent hp]
    exact ih

theorem Ordered.find_find (i : Nat) : f.find (f.find i) = f.find i :=
  find_of_root (h.parent?_find i)

theorem Ordered.le_find (i : Nat) : i ≤ f.find i := by
  induction i using h.induction with
  | root i hi => rw [find_of_root hi]
  | step i p hp ih =>
    rw [h.find_of_parent hp]
    exact (h.younger i p hp).1.le.trans ih

theorem Ordered.find_lt_iff (i : Nat) : f.find i < f.size ↔ i < f.size := by
  induction i using h.induction with
  | root i hi => rw [find_of_root hi]
  | step i p hp ih =>
    have hlt := h.younger i p hp
    rw [h.find_of_parent hp, ih]
    omega

/-- Forests with the same parents have the same classes. -/
theorem Ordered.find_congr {f' : PatternForest} (h' : f'.Ordered)
    (hsame : ∀ i, f'.parent? i = f.parent? i) (i : Nat) : f'.find i = f.find i := by
  induction i using h.induction with
  | root i hi => rw [find_of_root hi, find_of_root (by rw [hsame, hi])]
  | step i p hp ih => rw [h.find_of_parent hp, h'.find_of_parent (by rw [hsame, hp]), ih]

end Paths

section Conflicts

theorem conflict_eq_none_iff : f.conflict kind ids = none ↔
    ∀ id ∈ ids, ∀ c, (f.node id).kind = .bound c → kind = .bound c := by
  have hbound (k : PatternKind) (c : String) : k.bound? = some c ↔ k = .bound c := by
    cases k <;> simp [PatternKind.bound?]
  simp only [conflict, List.findSome?_eq_none_iff, Option.filter_eq_none_iff, hbound]
  simp [hbound]

end Conflicts

section Adding

@[simp] theorem size_add (rule : Option String) : (f.add kind rule).2.size = f.size + 1 := by
  simp [add, size]

theorem node_add (rule : Option String) (i : Nat) :
    (f.add kind rule).2.node i = if i = f.size then ⟨kind, rule⟩ else f.node i := by
  by_cases hi : i = f.size
  · simp [add, node, Array.getElem?_push, size] at hi ⊢
    simp [hi]
  · simp only [size] at hi
    simp [add, node, Array.getElem?_push, size, hi]

theorem parent?_add (rule : Option String) (i : Nat) :
    (f.add kind rule).2.parent? i = f.parent? i := by
  simp only [add, parent?, Array.getElem?_push]
  split_ifs with hi
  · simp [hi]
  · rfl

variable (h : f.Ordered)
include h

theorem Ordered.add (rule : Option String) : (f.add kind rule).2.Ordered where
  parents_size := by
    have hsize := h.parents_size
    simp only [size] at hsize
    simp [PatternForest.add, size, hsize]
  younger i p hp := by
    rw [parent?_add] at hp
    have hlt := h.younger i p hp
    rw [size_add]
    omega

theorem Ordered.find_add (rule : Option String) (i : Nat) :
    (f.add kind rule).2.find i = f.find i :=
  h.find_congr (h.add rule) (parent?_add rule) i

end Adding

section Adopting

@[simp] theorem size_adopt : (f.adopt kind rule ids).size = f.size + 1 := by
  simp [adopt, add, size]

theorem node_adopt (i : Nat) :
    (f.adopt kind rule ids).node i = if i = f.size then ⟨kind, some rule⟩ else f.node i :=
  node_add (some rule) i

theorem getElem?_foldl_set (parents : Array (Option Nat)) (id i : Nat) :
    (ids.foldl (fun parents child => parents.setIfInBounds child (some id)) parents)[i]? =
      if i ∈ ids ∧ i < parents.size then some (some id) else parents[i]? := by
  induction ids generalizing parents with
  | nil => simp
  | cons child ids ih =>
    rw [List.foldl_cons, ih, Array.size_setIfInBounds, Array.getElem?_setIfInBounds]
    by_cases hi : i = child
    · subst hi
      by_cases hmem : i ∈ ids <;> by_cases hlt : i < parents.size <;> simp [hmem, hlt]
    · simp [hi, Ne.symm hi]

theorem size_foldl_set (parents : Array (Option Nat)) (id : Nat) :
    (ids.foldl (fun parents child => parents.setIfInBounds child (some id)) parents).size =
      parents.size := by
  induction ids generalizing parents with
  | nil => rfl
  | cons child ids ih => rw [List.foldl_cons, ih, Array.size_setIfInBounds]

variable (h : f.Ordered)
include h

theorem Ordered.parent?_adopt (hids : ∀ id ∈ ids, id < f.size) (i : Nat) :
    (f.adopt kind rule ids).parent? i = if i ∈ ids then some f.size else f.parent? i := by
  have hadd : (f.add kind (some rule)).2.parents[i]?.join = f.parent? i := parent?_add _ i
  have hsize : (f.add kind (some rule)).2.parents.size = _ := (h.add (some rule)).parents_size
  rw [size_add] at hsize
  simp only [parent?, adopt, getElem?_foldl_set, hsize]
  by_cases hi : i ∈ ids
  · have hlt := hids i hi
    rw [if_pos ⟨hi, by omega⟩, if_pos hi]
    rfl
  · rw [if_neg fun h => hi h.1, if_neg hi]
    exact hadd

variable (hids : ∀ id ∈ ids, id < f.size)
include hids

theorem Ordered.adopt : (f.adopt kind rule ids).Ordered where
  parents_size := by
    have hsize : (f.add kind (some rule)).2.parents.size = _ := (h.add (some rule)).parents_size
    rw [size_add] at hsize
    rw [size_adopt, PatternForest.adopt, size_foldl_set, hsize]
  younger i p hp := by
    rw [h.parent?_adopt hids] at hp
    rw [size_adopt]
    split_ifs at hp with hi
    · obtain rfl := Option.some.inj hp
      exact ⟨hids i hi, Nat.lt_succ_self _⟩
    · have hlt := h.younger i p hp
      omega

/-- The classes below a new root are one class, the other classes stay as they are. -/
theorem Ordered.find_adopt (hroots : ∀ id ∈ ids, f.parent? id = none) (i : Nat) :
    (f.adopt kind rule ids).find i = if f.find i ∈ ids then f.size else f.find i := by
  have hadopt : (f.adopt kind rule ids).Ordered := h.adopt hids
  have hparent (i : Nat) : (f.adopt kind rule ids).parent? i = _ := h.parent?_adopt hids i
  have htop : (f.adopt kind rule ids).find f.size = f.size := by
    apply find_of_root
    rw [hparent, if_neg fun hin => (hids _ hin).false, h.parent?_of_size_le le_rfl]
  induction i using h.induction with
  | root i hi =>
    rw [find_of_root hi]
    by_cases hin : i ∈ ids
    · rw [if_pos hin, hadopt.find_of_parent (by rw [hparent, if_pos hin]), htop]
    · rw [if_neg hin, find_of_root (by rw [hparent, if_neg hin, hi])]
  | step i p hp ih =>
    have hin : i ∉ ids := fun hin => by simp [hroots i hin] at hp
    rw [h.find_of_parent hp, hadopt.find_of_parent (by rw [hparent, if_neg hin, hp]), ih]

end Adopting

section Classes

/-- The roots, one for each class. -/
def classes (f : PatternForest) : Finset Nat := (Finset.range f.size).filter (f.isRoot ·)

theorem mem_classes : i ∈ f.classes ↔ i < f.size ∧ f.parent? i = none := by
  simp [classes, isRoot]

theorem card_classes_le : f.classes.card ≤ f.size := by
  calc f.classes.card ≤ (Finset.range f.size).card := Finset.card_filter_le _ _
    _ = f.size := Finset.card_range _

theorem size_notMem_classes : f.size ∉ f.classes := fun hin => (mem_classes.1 hin).1.false

variable (h : f.Ordered)
include h

theorem Ordered.find_mem_classes (hi : i < f.size) : f.find i ∈ f.classes :=
  mem_classes.2 ⟨(h.find_lt_iff i).2 hi, h.parent?_find i⟩

theorem Ordered.classes_add (rule : Option String) :
    (f.add kind rule).2.classes = insert f.size f.classes := by
  ext i
  rw [mem_classes, Finset.mem_insert, mem_classes, parent?_add, size_add]
  constructor
  · rintro ⟨hlt, hroot⟩
    have : i = f.size ∨ i < f.size := by omega
    tauto
  · rintro (rfl | ⟨hlt, hroot⟩)
    · exact ⟨Nat.lt_succ_self _, h.parent?_of_size_le le_rfl⟩
    · exact ⟨by omega, hroot⟩

theorem Ordered.classes_adopt (hids : ∀ id ∈ ids, id < f.size) :
    (f.adopt kind rule ids).classes = insert f.size (f.classes \ ids.toFinset) := by
  ext i
  rw [mem_classes, Finset.mem_insert, Finset.mem_sdiff, mem_classes, List.mem_toFinset,
    h.parent?_adopt hids, size_adopt]
  constructor
  · rintro ⟨hlt, hroot⟩
    split_ifs at hroot with hin
    have : i = f.size ∨ i < f.size := by omega
    tauto
  · rintro (rfl | ⟨⟨hlt, hroot⟩, hin⟩)
    · have hin : f.size ∉ ids := fun hin => (hids _ hin).false
      exact ⟨Nat.lt_succ_self _, by rw [if_neg hin, h.parent?_of_size_le le_rfl]⟩
    · exact ⟨by omega, by rw [if_neg hin, hroot]⟩

/-- Merging several classes leaves fewer classes. -/
theorem Ordered.card_classes_adopt (hids : ∀ id ∈ ids, id < f.size)
    (hroots : ∀ id ∈ ids, f.parent? id = none) (hnodup : ids.Nodup) :
    (f.adopt kind rule ids).classes.card + ids.length = f.classes.card + 1 := by
  have hsub : ids.toFinset ⊆ f.classes := fun i hi =>
    mem_classes.2 ⟨hids i (List.mem_toFinset.1 hi), hroots i (List.mem_toFinset.1 hi)⟩
  have hnew : f.size ∉ f.classes \ ids.toFinset := fun hin =>
    size_notMem_classes (Finset.mem_sdiff.1 hin).1
  have hle := Finset.card_le_card hsub
  rw [h.classes_adopt hids, Finset.card_insert_of_notMem hnew, Finset.card_sdiff_of_subset hsub]
  rw [List.toFinset_card_of_nodup hnodup] at hle ⊢
  omega

end Classes

end StructuralTyping.PatternForest
