import StructuralTyping.NameMap
import StructuralTyping.Text.Quoted

/-!
# Kinds and shapes of patterns

A kind says what is known about the code at one point of a relation, a shape is a kind together with
the known labels. Kinds are ranked by how much they say.
-/
namespace StructuralTyping

inductive PatternKind
  /-- Any code that has the known labels. -/
  | unconstrained
  /-- A product with the known labels and maybe others. -/
  | openProduct
  /-- A union with the known labels and maybe others. -/
  | openUnion
  /-- A product or union with the known labels only. -/
  | closedUntyped
  | vector
  | closedProduct
  | closedUnion
  /-- A canonical code. -/
  | bound (code : String)
deriving DecidableEq

namespace PatternKind

def rank : PatternKind → Nat
  | unconstrained => 0
  | openProduct => 1
  | openUnion => 2
  | closedUntyped => 3
  | vector => 4
  | closedProduct => 5
  | closedUnion => 6
  | bound _ => 7

/-- Whether the pattern may still gain labels. -/
def isOpen : PatternKind → Bool
  | unconstrained | openProduct | openUnion => true
  | _ => false

def bound? : PatternKind → Option String
  | bound code => some code
  | _ => none

/-- The name of the kind in reports. -/
def title : PatternKind → String
  | unconstrained => "Unconstrained"
  | openProduct => "OpenProduct"
  | openUnion => "OpenUnion"
  | closedUntyped => "ClosedUntyped"
  | vector => "Vector"
  | closedProduct => "ClosedProduct"
  | closedUnion => "ClosedUnion"
  | bound code => "Bound(" ++ Text.quoteLiteral code ++ ")"

end PatternKind

structure Shape where
  kind : PatternKind
  labels : NameSet
deriving DecidableEq

namespace Shape

def text (s : Shape) : String :=
  let labels := ", ".intercalate s.labels.toList
  let more := if labels.isEmpty then "..." else labels ++ ", ..."
  match s.kind with
  | .unconstrained => "(" ++ more ++ ")"
  | .openProduct => "\x7b" ++ more ++ "\x7d"
  | .openUnion => "<" ++ more ++ ">"
  | .closedUntyped => "(" ++ labels ++ ")"
  | .vector => "[]"
  | .closedProduct => "\x7b" ++ labels ++ "\x7d"
  | .closedUnion => "<" ++ labels ++ ">"
  | .bound code => "$" ++ code

end Shape

end StructuralTyping
