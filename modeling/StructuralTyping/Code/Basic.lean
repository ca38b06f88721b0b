import StructuralTyping.NameMap
import StructuralTyping.Text.Label

/-!
# Codes

A code is one node of a structural type: a product or a union of labelled fields, or a vector. What
its fields refer to is left open; in a map of codes, references are names.
-/
namespace StructuralTyping

inductive Code (ρ : Type)
  | product (fields : NameMap ρ)
  | union (fields : NameMap ρ)
  | vector (element : ρ)
deriving DecidableEq

/-- Codes under names. A reference is a builtin name or the name of a code. -/
abbrev Codes := NameMap (Code String)

namespace Code
variable {ε ρ τ : Type}

/-- The empty product. -/
def unit : Code ρ := product ∅

def tag : Code ρ → String
  | product _ => "product"
  | union _ => "union"
  | vector _ => "vector"

def fields? : Code ρ → Option (NameMap ρ)
  | product fields => some fields
  | union fields => some fields
  | vector _ => none

/-- The references, in label order. -/
def refs : Code ρ → List ρ
  | product fields => fields.values
  | union fields => fields.values
  | vector element => [element]

def map (f : ρ → τ) : Code ρ → Code τ
  | product fields => product (fields.map f)
  | union fields => union (fields.map f)
  | vector element => vector (f element)

/-- Apply `f` to the references in label order; the first failure is the answer. -/
def traverse (f : ρ → Except ε τ) : Code ρ → Except ε (Code τ)
  | product fields => (fields.traverse f).map product
  | union fields => (fields.traverse f).map union
  | vector element => (f element).map vector

end Code

end StructuralTyping
