import StructuralTyping.Code.Declaration
import StructuralTyping.Exchange.Json

/-!
# Declarations as data

A builtin is a string. A code is an object with the member `code` for the constructor and at most
the members `product`, `union` and `vector`; other members are ignored, and a member that is null
counts as absent.
-/
namespace StructuralTyping

namespace Json

/-- A member that may be absent or null; none if it has the wrong form. -/
def optionalMember {α : Type} (read : Json → Option α) (key : String)
    (members : List (String × Json)) : Option (Option α) :=
  match member key members with
  | none => some none
  | some null => some none
  | some value => (read value).map some

end Json

namespace Declaration

def ofJson? : Json → Option Declaration
  | .str name => some (builtin name)
  | .obj members => do
    let tag ← (← Json.member "code" members).string?
    let product ← Json.optionalMember (Json.mapOf Json.string?) "product" members
    let union ← Json.optionalMember (Json.mapOf Json.string?) "union" members
    let vector ← Json.optionalMember Json.string? "vector" members
    return code tag product union vector
  | _ => none

def memberOf {α : Type} (key : String) (write : α → Json) : Option α → List (String × Json)
  | none => []
  | some value => [(key, write value)]

def toJson : Declaration → Json
  | builtin name => .str name
  | code tag product union vector =>
    .obj (("code", .str tag) ::
      memberOf "product" (Json.ofMap .str) product ++ memberOf "union" (Json.ofMap .str) union ++
      memberOf "vector" .str vector)

end Declaration

end StructuralTyping
