import StructuralTyping.Text.ContentHash
import StructuralTyping.Code.Encoding
import StructuralTyping.Code.Minimization

/-!
# Canonical names

The canonical name of a code is the hash of the encoding of its class, so it depends only on the
tree the code unfolds to. Two classes with the same hash are an error, hence canonical names tell
different trees apart.
-/
namespace StructuralTyping
namespace Codes

structure Finalized where
  /-- Codes under canonical names, with references to canonical names and builtins only. -/
  codes : Codes
  /-- Every name, the unit name included, to its canonical name. -/
  representatives : NameMap String
deriving DecidableEq

/-- The map with the empty product under the unit name, unless that name is declared. -/
def withUnit (codes : Codes) : Codes :=
  if codes.contains Text.unitName then codes else codes.insert Text.unitName .unit

/-- Name one more code by the hash of its encoding, unless another code has that hash. -/
def nameNext (normal : Codes) (named : List (String × String)) (name : String) :
    Except CodeError (List (String × String)) := do
  let canonical := Text.contentHash (← normal.encode name)
  match named.find? (·.2 = canonical) with
  | some other => .error (.impossible
      s!"{other.1} and {name} are different codes with the same hash {canonical}")
  | none => .ok (named ++ [(name, canonical)])

/-- Name each code by the hash of its encoding in the map. -/
def canonicalNames (normal : Codes) : Except CodeError (List (String × String)) :=
  normal.keys.foldlM normal.nameNext []

/-- The codes under canonical names, the empty product included. -/
def finalize (codes : Codes) : Except CodeError Finalized := do
  let codes := codes.withUnit
  let partition ← codes.minimize
  let normal : Codes := codes.normalize partition.representatives
  let named ← normal.canonicalNames
  let canonical (name : String) : String := (NameMap.lookup name named).getD name
  return {
    codes := .ofList (normal.entries.map fun (name, code) => (canonical name, code.map canonical))
    representatives := partition.representatives.map canonical }

end Codes

end StructuralTyping
