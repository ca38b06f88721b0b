/-!
# Filters

A filter tests the shape of the code that flows through a relation. All occurrences of a variable in
one filter have to match the same code. The fields of a filter are listed in ascending order of
their labels.
-/
namespace StructuralTyping

/-- Which codes with fields a filter admits. -/
inductive FieldsKind
  | any | product | union
deriving DecidableEq

inductive Filter
  | var (name : String)
  | code (name : String)
  /-- The listed fields, and maybe others if the filter is open. -/
  | fields (kind : FieldsKind) (fields : List (String × Filter)) (isOpen : Bool)
  /-- A vector whose elements match. -/
  | vector (element : Filter)

namespace Filter

mutual

def decEq : (f g : Filter) → Decidable (f = g)
  | var a, var b => decidable_of_iff (a = b) (by simp)
  | code a, code b => decidable_of_iff (a = b) (by simp)
  | fields k fs o, fields l gs p =>
    match decEqFields fs gs with
    | .isTrue h => decidable_of_iff (k = l ∧ o = p) (by simp [h])
    | .isFalse h => .isFalse (by simp [h])
  | vector f, vector g =>
    match decEq f g with
    | .isTrue h => .isTrue (by rw [h])
    | .isFalse h => .isFalse (by simpa using h)
  | var _, code _ | var _, fields .. | var _, vector _ => .isFalse (by simp)
  | code _, var _ | code _, fields .. | code _, vector _ => .isFalse (by simp)
  | fields .., var _ | fields .., code _ | fields .., vector _ => .isFalse (by simp)
  | vector _, var _ | vector _, code _ | vector _, fields .. => .isFalse (by simp)

def decEqFields : (fs gs : List (String × Filter)) → Decidable (fs = gs)
  | [], [] => .isTrue rfl
  | [], _ :: _ => .isFalse (by simp)
  | _ :: _, [] => .isFalse (by simp)
  | (k, f) :: fs, (l, g) :: gs =>
    match decEq f g, decEqFields fs gs with
    | .isTrue h, .isTrue h' => decidable_of_iff (k = l) (by simp [h, h'])
    | .isFalse h, _ => .isFalse (by simp [h])
    | _, .isFalse h => .isFalse (by simp [h])

end

instance : DecidableEq Filter := decEq

end Filter

end StructuralTyping
