import StructuralTyping.Code.Error
import StructuralTyping.Text.Span

/-!
# Errors of pattern inference
-/
namespace StructuralTyping

inductive PatternError
  | structuralMismatch (rule lhs rhs : String) (span : Option Text.Span)
  | forestInvariantViolation (lhs rhs : String)
  | unknownRelation (name : String) (span : Option Text.Span)
  | unresolvedPattern (relation pattern : String) (span : Option Text.Span)
  | loopInProduct (pattern : String)
  | code (error : CodeError)
  /-- A recursion went beyond its bound. -/
  | exhausted
deriving DecidableEq

namespace PatternError

def diagnostic : PatternError → Diagnostic
  | structuralMismatch rule lhs rhs _ =>
    { kind := "StructuralMismatch"
      number := "P-001"
      message := s!"Cannot unify {lhs} with {rhs}"
      help := s!"The conflict arose while applying the rule `{rule}`." }
  | forestInvariantViolation lhs rhs =>
    { kind := "ForestInvariantViolation"
      number := "P-002"
      message := s!"The distinct codes {lhs} and {rhs} cannot share a pattern" }
  | unknownRelation name _ =>
    { kind := "UnknownRelation"
      number := "P-003"
      message := s!"Reference to undefined relation {name}" }
  | unresolvedPattern relation pattern _ =>
    { kind := "UnresolvedPattern"
      number := "P-004"
      message := s!"The pattern {pattern} of {relation} is still open"
      help := "Add a code assertion to fix the shape." }
  | loopInProduct pattern =>
    { kind := "LoopInProduct"
      number := "P-005"
      message := s!"The product pattern {pattern} contains itself"
      help := "A recursive structure has to be a union with a base case." }
  | code error => error.diagnostic
  | exhausted => (CodeError.impossible "a recursion went beyond its bound").diagnostic

def span? : PatternError → Option Text.Span
  | structuralMismatch _ _ _ span | unknownRelation _ span | unresolvedPattern _ _ span => span
  | _ => none

/-- Give a mismatch that has no place yet the given one. -/
def located (span : Option Text.Span) : PatternError → PatternError
  | structuralMismatch rule lhs rhs none => structuralMismatch rule lhs rhs span
  | e => e

end PatternError

end StructuralTyping
