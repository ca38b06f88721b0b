import StructuralTyping.Text.Quoted
import StructuralTyping.Code.Basic
import StructuralTyping.Code.Error

/-!
# Canonical encoding

The codes that can be reached from a root are numbered in breadth-first order and written one
definition after the other, with numbers in the place of names. The text depends neither on the
names nor on the order in which fields were given.
-/
namespace StructuralTyping
namespace Codes

/-- The names in the queue and those reached from them, in breadth-first order after the names that
are done. A name without a code is an error; `fuel` bounds the number of names that have one. -/
def explore (codes : Codes) : Nat → List String → List String → Except CodeError (List String)
  | _, done, [] => .ok done
  | 0, _, name :: _ => .error (.unknownCode name none)
  | fuel + 1, done, name :: queue =>
    match codes.get? name with
    | none => .error (.unknownCode name none)
    | some code =>
      let met := done ++ name :: queue
      let fresh := code.refs.filter fun r => !Text.isBuiltin r && r ∉ met
      explore codes fuel (done ++ [name]) (queue ++ fresh.eraseDups)

/-- A builtin stands for itself, any other name for its number. -/
def token (order : List String) (reference : String) : String :=
  if Text.isBuiltin reference then reference else s!"C{order.idxOf reference}"

def encodeFields (order : List String) (fields : NameMap String) : String :=
  ",".intercalate (fields.entries.map fun (label, r) => token order r ++ Text.quoteData label)

def encodeCode (order : List String) : Code String → String
  | .product fields => "\x7b" ++ encodeFields order fields ++ "\x7d"
  | .union fields => "<" ++ encodeFields order fields ++ ">"
  | .vector element => "[" ++ token order element ++ "]"

def encodeDefinition (codes : Codes) (order : List String) (name : String) : String :=
  s!"$C{order.idxOf name}=" ++ encodeCode order (codes.getD name .unit) ++ ";"

/-- The text of all codes that can be reached from `root`; a builtin is its own text. -/
def encode (codes : Codes) (root : String) : Except CodeError String :=
  if Text.isBuiltin root then .ok root
  else (codes.explore (codes.size + 1) [] [root]).map fun order =>
    .join (order.map (codes.encodeDefinition order))

end Codes

end StructuralTyping
