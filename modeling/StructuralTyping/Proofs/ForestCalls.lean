import Mathlib.Logic.Relation
import StructuralTyping.Proofs.PatternClasses

/-!
# Any use of a forest

The operations on a forest do not check that the nodes to be linked are roots, nor that they are
distinct, so a node can be taken from below its parent and put below a new node at any time. It goes
below a younger node each time, and below a node of the same code if it is bound to one. This is
all that is needed for paths to end and for the root of a node to be bound to the code of the node.
Main statement: `Grown.ordered_and_faithful`.
-/
namespace StructuralTyping.PatternForest
variable {f f' : PatternForest} {kind : PatternKind} {rule : String} {ids : List Nat}
  {i j p : Nat} {c : String}

/-- Operations on a forest, which stays as it is left by an operation that fails. -/
abbrev Growth := EStateM PatternError PatternForest

/-- Accept a node to be put below one of the kind, unless it is bound to another code. -/
def accept (kind : PatternKind) (id : Nat) : Growth PUnit := do
  match ((← get).node id).kind.bound?.filter (kind.bound? ≠ some ·) with
  | some code => throw (.forestInvariantViolation code (kind.bound?.getD "an unbound pattern"))
  | none => pure ⟨⟩

def withParent (f : PatternForest) (child parent : Nat) : PatternForest :=
  { f with parents := f.parents.setIfInBounds child (some parent) }

/-- Linking as one change after the other: all nodes are accepted, a node is added, and then each of
the nodes is put below it. -/
def linkInPlace (kind : PatternKind) (rule : String) (ids : List Nat) : Growth Nat := do
  ids.forM (accept kind)
  let parent ← modifyGet (·.add kind (some rule))
  ids.forM fun child => modify (·.withParent child parent)
  return parent

section Linking

theorem get_bind {α : Type} (k : PatternForest → Growth α) : (get >>= k) f = k f f := rfl

theorem forM_accept : ids.forM (accept kind) f = match f.conflict kind ids with
    | some code =>
      .error (.forestInvariantViolation code (kind.bound?.getD "an unbound pattern")) f
    | none => .ok ⟨⟩ f := by
  induction ids with
  | nil => rfl
  | cons id ids ih =>
    change (accept kind id >>= fun _ => ids.forM (accept kind)) f = _
    -- A node is refused here exactly if it is in the way there, and the first one is reported.
    unfold conflict at ih ⊢
    rw [List.findSome?_cons]
    simp only [accept, bind_assoc, get_bind]
    cases ((f.node id).kind.bound?.filter (kind.bound? ≠ some ·)) with
    | some code => rfl
    | none => exact ih

theorem forM_withParent (parent : Nat) :
    ids.forM (fun child => (modify (·.withParent child parent) : Growth PUnit)) f =
      .ok ⟨⟩ { f with parents := ids.foldl (·.setIfInBounds · (some parent)) f.parents } := by
  induction ids generalizing f with
  | nil => rfl
  | cons child ids ih =>
    exact ih (f := f.withParent child parent)

/-- A link that is refused has changed nothing. -/
theorem linkInPlace_eq : linkInPlace kind rule ids f = match f.link kind rule ids with
    | .ok (parent, f') => .ok parent f'
    | .error e => .error e f := by
  unfold linkInPlace link
  simp only [bind, EStateM.bind, forM_accept]
  cases f.conflict kind ids with
  | some code => rfl
  | none =>
    change (ids.forM (fun child => modify (·.withParent child f.size)) >>= fun _ =>
      (pure f.size : Growth Nat)) (f.add kind (some rule)).2 = _
    simp only [bind, EStateM.bind, forM_withParent]
    rfl

end Linking

/-- A call of one of the operations on forests. -/
inductive Call
  | add (kind : PatternKind) (rule : Option String)
  | link (kind : PatternKind) (rule : String) (ids : List Nat)

namespace Call

def perform : Call → Growth Nat
  | add kind rule => modifyGet (·.add kind rule)
  | link kind rule ids => linkInPlace kind rule ids

/-- The nodes to be linked. They need not be roots, nor distinct. -/
def children : Call → List Nat
  | add _ _ => []
  | link _ _ ids => ids

end Call

/-- The forest after a call, whether it succeeds or fails. -/
def after (f : PatternForest) (call : Call) : PatternForest :=
  match call.perform f with
  | .ok _ f' => f'
  | .error _ f' => f'

/-- The nodes that are spoken of in a sequence of calls are there. -/
def Allows (f : PatternForest) : List Call → Prop
  | [] => True
  | call :: calls => (∀ id ∈ call.children, id < f.size) ∧ (f.after call).Allows calls

instance decidableAllows : (f : PatternForest) → (calls : List Call) → Decidable (f.Allows calls)
  | _, [] => inferInstanceAs (Decidable True)
  | f, call :: calls =>
    have := decidableAllows (f.after call) calls
    inferInstanceAs (Decidable (_ ∧ _))

/-- A forest that calls have led to, successful and failed ones. -/
def Grown (f : PatternForest) : Prop :=
  ∃ calls, Allows {} calls ∧ calls.foldl after {} = f

section Calls

theorem after_add (rule : Option String) : f.after (.add kind rule) = (f.add kind rule).2 := rfl

theorem after_link : f.after (.link kind rule ids) =
    if f.conflict kind ids = none then f.adopt kind rule ids else f := by
  simp only [after, Call.perform, linkInPlace_eq, link]
  cases f.conflict kind ids with
  | some code => rfl
  | none => rfl

/-- Parents are younger than their children, and those of a node that is bound to a code are bound
to the code as well. -/
structure Faithful (f : PatternForest) : Prop extends Ordered f where
  codes : ∀ i p c, f.parent? i = some p → (f.node i).kind = .bound c → (f.node p).kind = .bound c

theorem faithful_empty : Faithful {} where
  parents_size := rfl
  younger i p hp := by simp [parent?] at hp
  codes i p c hp := by simp [parent?] at hp

variable (h : f.Faithful)
include h

theorem Faithful.kind_find (hi : (f.node i).kind = .bound c) :
    (f.node (f.find i)).kind = .bound c := by
  induction i using h.induction with
  | root i hroot => rwa [find_of_root hroot]
  | step i p hp ih =>
    rw [h.find_of_parent hp]
    exact ih (h.codes i p c hp hi)

theorem Faithful.add (rule : Option String) : (f.add kind rule).2.Faithful where
  toOrdered := h.toOrdered.add rule
  codes i p c hp hi := by
    rw [parent?_add] at hp
    have hlt := h.younger i p hp
    rw [node_add, if_neg (by omega)] at hi ⊢
    exact h.codes i p c hp hi

theorem Faithful.adopt (hids : ∀ id ∈ ids, id < f.size) (hfree : f.conflict kind ids = none) :
    (f.adopt kind rule ids).Faithful where
  toOrdered := h.toOrdered.adopt hids
  codes i p c hp hi := by
    rw [h.parent?_adopt hids] at hp
    split_ifs at hp with hin
    · obtain rfl := Option.some.inj hp
      have hlt := hids i hin
      rw [node_adopt, if_neg (by omega)] at hi
      rw [node_adopt, if_pos rfl]
      exact conflict_eq_none_iff.1 hfree i hin c hi
    · have hlt := h.younger i p hp
      rw [node_adopt, if_neg (by omega)] at hi ⊢
      exact h.codes i p c hp hi

theorem Faithful.after {call : Call} (hids : ∀ id ∈ call.children, id < f.size) :
    (f.after call).Faithful := by
  cases call with
  | add kind rule =>
    rw [after_add]
    exact h.add rule
  | link kind rule ids =>
    rw [after_link]
    split_ifs with hfree
    · exact h.adopt hids hfree
    · exact h

theorem Faithful.foldl_after {calls : List Call} (hcalls : f.Allows calls) :
    (calls.foldl PatternForest.after f).Faithful := by
  induction calls generalizing f with
  | nil => exact h
  | cons call calls ih => exact ih (h.after hcalls.1) hcalls.2

end Calls

theorem Grown.faithful (h : f.Grown) : f.Faithful := by
  obtain ⟨calls, hcalls, rfl⟩ := h
  exact faithful_empty.foldl_after hcalls

section Paths

/-- The root of a node is where the path over its parents ends. -/
theorem Ordered.path_find (h : f.Ordered) (i : Nat) :
    Relation.ReflTransGen (fun i p => f.parent? i = some p) i (f.find i) := by
  induction i using h.induction with
  | root i hroot => rw [find_of_root hroot]
  | step i p hp ih =>
    rw [h.find_of_parent hp]
    exact .head hp ih

/-- Nodes that are linked have the new node as their root, also those that were no roots before. -/
theorem Ordered.find_adopt_of_mem (h : f.Ordered) (hids : ∀ id ∈ ids, id < f.size) (hi : i ∈ ids) :
    (f.adopt kind rule ids).find i = f.size := by
  have hadopt : (f.adopt kind rule ids).Ordered := h.adopt hids
  rw [hadopt.find_of_parent (by rw [h.parent?_adopt hids, if_pos hi])]
  apply find_of_root
  rw [h.parent?_adopt hids, if_neg fun hin => (hids _ hin).false, h.parent?_of_size_le le_rfl]

end Paths

section Answers

/-- The code that is in the way is one that some node is bound to, and the kind is not. -/
theorem exists_of_conflict (h : f.conflict kind ids = some c) :
    ∃ id ∈ ids, (f.node id).kind = .bound c ∧ kind ≠ .bound c := by
  obtain ⟨id, hid, hbound⟩ := List.exists_of_findSome?_eq_some h
  obtain ⟨hcode, hne⟩ := Option.filter_eq_some_iff.1 hbound
  refine ⟨id, hid, ?_, ?_⟩
  · cases hkind : (f.node id).kind <;> simp_all [PatternKind.bound?]
  · rintro rfl
    simp [PatternKind.bound?] at hne

theorem of_linkInPlace_eq_error {e : PatternError} (h : linkInPlace kind rule ids f = .error e f') :
    f' = f ∧ ∃ c, (∃ id ∈ ids, (f.node id).kind = .bound c ∧ kind ≠ .bound c) ∧
      e = .forestInvariantViolation c (kind.bound?.getD "an unbound pattern") := by
  rw [linkInPlace_eq, link] at h
  cases hconflict : f.conflict kind ids with
  | some code =>
    rw [hconflict] at h
    cases h
    exact ⟨rfl, code, exists_of_conflict hconflict, rfl⟩
  | none =>
    rw [hconflict] at h
    cases h

theorem of_linkInPlace_eq_ok {parent : Nat} (h : linkInPlace kind rule ids f = .ok parent f') :
    parent = f.size ∧ f' = f.adopt kind rule ids := by
  rw [linkInPlace_eq, link] at h
  cases hconflict : f.conflict kind ids with
  | some code =>
    rw [hconflict] at h
    cases h
  | none =>
    rw [hconflict] at h
    cases h
    exact ⟨rfl, rfl⟩

end Answers

/-- However a forest was built, the path from a node leads over ever younger nodes to a root, and
the root of a node that is bound to a code is bound to the same code. A link is refused for the sake
of a code only, and then the forest is as it was before; otherwise all the nodes are below the new
one. -/
theorem Grown.ordered_and_faithful (h : f.Grown) :
    (∀ i p, f.parent? i = some p → i < p ∧ p < f.size) ∧
    (∀ i < f.size, Relation.ReflTransGen (fun i p => f.parent? i = some p) i (f.find i) ∧
      f.isRoot (f.find i) ∧ i ≤ f.find i ∧ f.find i < f.size) ∧
    (∀ i c, (f.node i).kind = .bound c → (f.node (f.find i)).kind = .bound c) ∧
    ∀ kind rule ids, (∀ id ∈ ids, id < f.size) →
      (∀ e f', linkInPlace kind rule ids f = .error e f' → f' = f ∧
        ∃ c, (∃ id ∈ ids, (f.node id).kind = .bound c ∧ kind ≠ .bound c) ∧
          e = .forestInvariantViolation c (kind.bound?.getD "an unbound pattern")) ∧
      ∀ parent f', linkInPlace kind rule ids f = .ok parent f' →
        parent = f.size ∧ ∀ id ∈ ids, f'.find id = parent := by
  have hf := h.faithful
  refine ⟨hf.younger, fun i hi => ⟨hf.path_find i, ?_, hf.le_find i, (hf.find_lt_iff i).2 hi⟩,
    fun i c => hf.kind_find, fun kind rule ids hids => ⟨?_, ?_⟩⟩
  · rw [isRoot, hf.parent?_find]
    rfl
  · exact fun e f' => of_linkInPlace_eq_error
  · intro parent f' hok
    obtain ⟨rfl, rfl⟩ := of_linkInPlace_eq_ok hok
    exact ⟨rfl, fun id hid => hf.find_adopt_of_mem hids hid⟩

/-- A node that was merged with the pattern of a code, and then taken away from there by a link that
does not ask for roots. Putting the pattern of the code below a vector is refused. -/
def strayCalls : List Call :=
  [.add .unconstrained none, .add (.bound "DBO") none, .link (.bound "DBO") "merge" [1, 0, 1],
    .add .vector none, .link .vector "stray" [0, 3], .link .vector "refused" [3, 1]]

def strayed : PatternForest := strayCalls.foldl after {}

theorem grown_strayed : strayed.Grown := ⟨strayCalls, by decide, rfl⟩

theorem Grown.ordered_and_faithful_strayed : strayed.Grown ∧
    (strayed.find 0 = 4 ∧ strayed.isRoot (strayed.find 0)) ∧
    ((strayed.node 1).kind = .bound "DBO" ∧ (strayed.node (strayed.find 1)).kind = .bound "DBO") ∧
    linkInPlace .vector "again" [4, 2] strayed =
      .error (.forestInvariantViolation "DBO" "an unbound pattern") strayed ∧
    ∃ c, (∃ id ∈ [4, 2], (strayed.node id).kind = .bound c ∧ PatternKind.vector ≠ .bound c) ∧
      PatternError.forestInvariantViolation "DBO" "an unbound pattern" =
        .forestInvariantViolation c "an unbound pattern" := by
  obtain ⟨-, hpaths, hcodes, hlinks⟩ := Grown.ordered_and_faithful grown_strayed
  have hrefused : linkInPlace .vector "again" [4, 2] strayed =
      .error (.forestInvariantViolation "DBO" "an unbound pattern") strayed := rfl
  exact ⟨grown_strayed, ⟨by decide, (hpaths 0 (by decide)).2.1⟩,
    ⟨by decide, hcodes 1 "DBO" (by decide)⟩, hrefused,
    ((hlinks .vector "again" [4, 2] (by decide)).1 _ _ hrefused).2⟩

end StructuralTyping.PatternForest
