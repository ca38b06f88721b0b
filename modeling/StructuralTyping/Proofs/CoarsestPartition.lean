import Mathlib.Data.Finset.Card
import StructuralTyping.Refinement

/-!
# The coarsest partition is bisimilarity

In a system that no node leads out of, the rounds of splitting stop before the fuel does, and the
classes they stop with are exactly the classes of bisimilar nodes. A class is named by its first
node, so a partition is finer than another only if it has more such leaders; this is what bounds the
number of rounds.
-/
namespace StructuralTyping.System

/-- Nodes that some bisimulation relates. -/
def Bisimilar {σ : Type} (s : System σ) (i j : Nat) : Prop := ∃ r, s.IsBisimulation r ∧ r i j

/-- No node leads out of the system. -/
def IsClosed {σ : Type} (s : System σ) : Prop := ∀ i < s.size, ∀ j ∈ s.next i, j < s.size

/-- Every class is named by its first node. -/
structure IsNumbering (n : Nat) (classes : Array Nat) : Prop where
  size : classes.size = n
  le : ∀ i < n, classOf classes i ≤ i
  idem : ∀ i < n, classOf classes (classOf classes i) = classOf classes i

/-- Nodes of one class in `fine` are in one class in `coarse`. -/
def Refines (n : Nat) (fine coarse : Array Nat) : Prop :=
  ∀ i < n, ∀ j < n, classOf fine i = classOf fine j → classOf coarse i = classOf coarse j

def leaders (n : Nat) (classes : Array Nat) : Finset Nat :=
  (Finset.range n).filter fun i => classOf classes i = i

section Numbering
variable {τ : Type} [DecidableEq τ] {n : Nat} {fine coarse : Array Nat}

theorem classOf_firstEqual (keys : List τ) (i : Nat) (hi : i < keys.length) :
    classOf (firstEqual keys).toArray i = keys.idxOf keys[i] := by
  simp [classOf, firstEqual, hi]

theorem classOf_firstEqual_eq_iff (keys : List τ) {i j : Nat} (hi : i < keys.length)
    (hj : j < keys.length) :
    classOf (firstEqual keys).toArray i = classOf (firstEqual keys).toArray j ↔
      keys[i] = keys[j] := by
  rw [classOf_firstEqual keys i hi, classOf_firstEqual keys j hj]
  exact List.idxOf_inj (List.getElem_mem hi)

theorem firstEqual_isNumbering (keys : List τ) :
    IsNumbering keys.length (firstEqual keys).toArray where
  size := by simp [firstEqual]
  le i hi := by
    rw [classOf_firstEqual keys i hi]
    by_contra h
    have hfirst := List.not_of_lt_findIdx (Nat.lt_of_not_le h)
    simp at hfirst
  idem i hi := by
    have hlt : keys.idxOf keys[i] < keys.length := List.idxOf_lt_length_of_mem (List.getElem_mem hi)
    rw [classOf_firstEqual keys i hi, classOf_firstEqual keys _ hlt, List.getElem_idxOf hlt]

theorem IsNumbering.class_lt (h : IsNumbering n coarse) {i : Nat} (hi : i < n) :
    classOf coarse i < n := Nat.lt_of_le_of_lt (h.le i hi) hi

theorem Refines.class_le (hr : Refines n fine coarse) (hf : IsNumbering n fine)
    (hc : IsNumbering n coarse) {i : Nat} (hi : i < n) : classOf coarse i ≤ classOf fine i := by
  have hk := hf.class_lt hi
  have hsame : classOf coarse (classOf fine i) = classOf coarse i := hr _ hk i hi (hf.idem i hi)
  calc classOf coarse i = classOf coarse (classOf fine i) := hsame.symm
    _ ≤ classOf fine i := hc.le _ hk

theorem Refines.leaders_subset (hr : Refines n fine coarse) (hf : IsNumbering n fine)
    (hc : IsNumbering n coarse) : leaders n coarse ⊆ leaders n fine := by
  intro i hi
  simp only [leaders, Finset.mem_filter, Finset.mem_range] at hi ⊢
  refine ⟨hi.1, Nat.le_antisymm (hf.le i hi.1) ?_⟩
  calc i = classOf coarse i := hi.2.symm
    _ ≤ classOf fine i := hr.class_le hf hc hi.1

/-- Where the finer partition differs, its class is led by a node that leads no coarser class. -/
theorem Refines.card_leaders_lt (hr : Refines n fine coarse) (hf : IsNumbering n fine)
    (hc : IsNumbering n coarse) (hne : fine ≠ coarse) :
    (leaders n coarse).card < (leaders n fine).card := by
  obtain ⟨i, hi, hdiff⟩ : ∃ i < n, classOf fine i ≠ classOf coarse i := by
    by_contra h
    push Not at h
    apply hne
    apply Array.ext
    · rw [hf.size, hc.size]
    · intro i hi hi'
      have := h i (hf.size ▸ hi)
      simpa [classOf, hi, hi'] using this
  have hk := hf.class_lt hi
  have hlt : classOf coarse i < classOf fine i :=
    Nat.lt_of_le_of_ne (hr.class_le hf hc hi) (Ne.symm hdiff)
  have hsame : classOf coarse (classOf fine i) = classOf coarse i := hr _ hk i hi (hf.idem i hi)
  apply Finset.card_lt_card
  refine ⟨hr.leaders_subset hf hc, fun hsub => ?_⟩
  have hmem : classOf fine i ∈ leaders n coarse := hsub (by simp [leaders, hk, hf.idem i hi])
  simp only [leaders, Finset.mem_filter] at hmem
  omega

end Numbering

section Rounds
variable {σ : Type} (s : System σ) {i j : Nat}

theorem split_isNumbering (classes : Array Nat) : IsNumbering s.size (s.split classes) := by
  have h := firstEqual_isNumbering ((List.range s.size).map fun i =>
    (classOf classes i, (s.next i).map (classOf classes)))
  rw [List.length_map, List.length_range] at h
  exact h

theorem split_eq_iff (classes : Array Nat) (hi : i < s.size) (hj : j < s.size) :
    classOf (s.split classes) i = classOf (s.split classes) j ↔
      classOf classes i = classOf classes j ∧
        (s.next i).map (classOf classes) = (s.next j).map (classOf classes) := by
  unfold split
  rw [classOf_firstEqual_eq_iff _ (by simpa) (by simpa)]
  simp

theorem split_refines (classes : Array Nat) : Refines s.size (s.split classes) classes :=
  fun _ hi _ hj h => ((s.split_eq_iff classes hi hj).1 h).1

/-- With enough fuel for the leaders that are still missing, splitting ends in a partition that
another round leaves alone. -/
theorem split_splitAll (fuel : Nat) (classes : Array Nat) (h : IsNumbering s.size classes)
    (hfuel : s.size < fuel + (leaders s.size classes).card) :
    s.split (s.splitAll fuel classes) = s.splitAll fuel classes := by
  induction fuel generalizing classes with
  | zero =>
    have hle : (leaders s.size classes).card ≤ s.size := by
      simpa [leaders] using Finset.card_filter_le (Finset.range s.size) _
    omega
  | succ fuel ih =>
    rw [splitAll]
    split_ifs with hstable
    · exact hstable
    · have hlt := (s.split_refines classes).card_leaders_lt (s.split_isNumbering classes) h hstable
      exact ih _ (s.split_isNumbering classes) (by omega)

/-- What every round preserves holds of the result. -/
theorem splitAll_induction {p : Array Nat → Prop}
    (hsplit : ∀ classes, p classes → p (s.split classes)) (fuel : Nat) (classes : Array Nat)
    (h : p classes) : p (s.splitAll fuel classes) := by
  induction fuel generalizing classes with
  | zero => exact h
  | succ fuel ih =>
    rw [splitAll]
    split_ifs
    · exact h
    · exact ih _ (hsplit classes h)

variable [DecidableEq σ]

theorem initial_isNumbering : IsNumbering s.size s.initial := by
  have h := firstEqual_isNumbering ((List.range s.size).map s.head)
  rw [List.length_map, List.length_range] at h
  exact h

theorem initial_eq_iff (hi : i < s.size) (hj : j < s.size) :
    classOf s.initial i = classOf s.initial j ↔ s.head i = s.head j := by
  unfold initial
  rw [classOf_firstEqual_eq_iff _ (by simpa) (by simpa)]
  simp

theorem coarsest_isNumbering : IsNumbering s.size s.coarsest :=
  s.splitAll_induction (fun classes _ => s.split_isNumbering classes) _ _ s.initial_isNumbering

theorem split_coarsest (hsize : 0 < s.size) : s.split s.coarsest = s.coarsest := by
  apply s.split_splitAll _ _ s.initial_isNumbering
  have hzero : 0 ∈ leaders s.size s.initial := by
    have := s.initial_isNumbering.le 0 hsize
    simp only [leaders, Finset.mem_filter, Finset.mem_range]
    omega
  have := Finset.card_pos.2 ⟨0, hzero⟩
  omega

theorem coarsest_refines_initial : Refines s.size s.coarsest s.initial := by
  refine s.splitAll_induction (p := fun classes => Refines s.size classes s.initial) ?_ _ _ ?_
  · intro classes h i hi j hj hij
    exact h i hi j hj (s.split_refines classes i hi j hj hij)
  · exact fun _ _ _ _ h => h

variable {s}

/-- Bisimilar nodes stay together in every round. -/
theorem Bisimilar.coarsest_eq (hclosed : s.IsClosed) (hi : i < s.size) (hj : j < s.size)
    (h : s.Bisimilar i j) : classOf s.coarsest i = classOf s.coarsest j := by
  obtain ⟨r, hr, hij⟩ := h
  suffices hall : ∀ i < s.size, ∀ j < s.size, r i j →
      classOf s.coarsest i = classOf s.coarsest j from hall i hi j hj hij
  refine s.splitAll_induction
    (p := fun classes => ∀ i < s.size, ∀ j < s.size, r i j → classOf classes i = classOf classes j)
    ?_ _ _ ?_
  · intro classes ih i hi j hj hij
    obtain ⟨-, hlen, hnext⟩ := hr i j hij
    refine (s.split_eq_iff classes hi hj).2 ⟨ih i hi j hj hij, ?_⟩
    apply List.ext_getElem (by simpa using hlen)
    intro k hk hk'
    simp only [List.length_map] at hk hk'
    have hmem : ((s.next i)[k], (s.next j)[k]) ∈ (s.next i).zip (s.next j) :=
      List.mem_iff_getElem.2 ⟨k, by simp; omega, by simp⟩
    simpa using ih _ (hclosed i hi _ (List.getElem_mem hk)) _
      (hclosed j hj _ (List.getElem_mem hk')) (hnext _ hmem)
  · intro i hi j hj hij
    exact (s.initial_eq_iff hi hj).2 (hr i j hij).1

theorem coarsest_isBisimulation (hclosed : s.IsClosed) :
    s.IsBisimulation fun i j =>
      i < s.size ∧ j < s.size ∧ classOf s.coarsest i = classOf s.coarsest j := by
  rintro i j ⟨hi, hj, hij⟩
  have hsplit : classOf (s.split s.coarsest) i = classOf (s.split s.coarsest) j := by
    rwa [s.split_coarsest (Nat.zero_lt_of_lt hi)]
  have hnext := ((s.split_eq_iff _ hi hj).1 hsplit).2
  refine ⟨(s.initial_eq_iff hi hj).1 (s.coarsest_refines_initial i hi j hj hij), ?_, ?_⟩
  · simpa using congrArg List.length hnext
  · intro p hp
    obtain ⟨k, hk, rfl⟩ := List.mem_iff_getElem.1 hp
    simp only [List.length_zip, Nat.lt_min] at hk
    have hclass : ((s.next i).map (classOf s.coarsest))[k]? =
        ((s.next j).map (classOf s.coarsest))[k]? := by rw [hnext]
    refine ⟨hclosed i hi _ (by simp), hclosed j hj _ (by simp), ?_⟩
    simpa [hk.1, hk.2] using hclass

/-- The classes of the coarsest partition are the classes of bisimilar nodes. -/
theorem coarsest_eq_iff (hclosed : s.IsClosed) (hi : i < s.size) (hj : j < s.size) :
    classOf s.coarsest i = classOf s.coarsest j ↔ s.Bisimilar i j :=
  ⟨fun h => ⟨_, coarsest_isBisimulation hclosed, hi, hj, h⟩, Bisimilar.coarsest_eq hclosed hi hj⟩

end Rounds

end StructuralTyping.System
