import StructuralTyping.NameMap

/-!
# Data trees

The trees that units, declarations and relations are exchanged as. A number that is not written as
a plain integer is kept as its text: no format here reads one.
-/
namespace StructuralTyping

inductive Json
  | null
  | bool (value : Bool)
  | int (value : Int)
  | otherNumber (text : String)
  | str (value : String)
  | arr (items : List Json)
  | obj (members : List (String × Json))

namespace Json

def string? : Json → Option String
  | str s => some s
  | _ => none

def bool? : Json → Option Bool
  | bool b => some b
  | _ => none

def int? : Json → Option Int
  | int n => some n
  | _ => none

def member (key : String) : List (String × Json) → Option Json := NameMap.lookup key

/-- Read an object whose values have one form, in ascending order of its keys. -/
def mapOf {α : Type} (read : Json → Option α) : Json → Option (NameMap α)
  | obj members => do return .ofList (← members.mapM fun m => do return (m.1, ← read m.2))
  | _ => none

def listOf {α : Type} (read : Json → Option α) : Json → Option (List α)
  | arr items => items.mapM read
  | _ => none

def ofMap {α : Type} (write : α → Json) (m : NameMap α) : Json :=
  obj (m.entries.map fun e => (e.1, write e.2))

end Json

end StructuralTyping
