/-!
# Errors of the code repository
-/
namespace StructuralTyping

/-- What an error report says besides its place. -/
structure Diagnostic where
  kind : String
  number : String
  message : String
  help : Option String := none

inductive CodeError
  /-- No code has the name, which `referencedBy` refers to if it is given. -/
  | unknownCode (name : String) (referencedBy : Option String)
  | malformedCode (name reason : String)
  /-- An internal invariant does not hold. -/
  | impossible (reason : String)
deriving DecidableEq

def CodeError.diagnostic : CodeError → Diagnostic
  | unknownCode name _ =>
    { kind := "UnknownCode"
      number := "C-001"
      message := s!"Reference to unknown code {name}"
      help := "A code reference must name a declared code, a builtin or a registered code." }
  | malformedCode name reason =>
    { kind := "MalformedCode"
      number := "C-002"
      message := s!"Malformed code {name}: {reason}" }
  | impossible reason =>
    { kind := "Impossible"
      number := "C-003"
      message := s!"An unexpected internal error occurred: {reason}" }

end StructuralTyping
