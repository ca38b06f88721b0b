import StructuralTyping.Code.Basic
import StructuralTyping.Code.Error

/-!
# Code declarations

A declaration is either the name of a builtin or names a constructor together with the members that
were written for it. It is sound if the builtin is one, or the constructor is known and its member
is there.
-/
namespace StructuralTyping

inductive Declaration
  | builtin (name : String)
  | code (tag : String) (product union : Option (NameMap String)) (vector : Option String)
deriving DecidableEq

/-- What a sound declaration stands for. -/
inductive Definition
  | builtin (name : String)
  | code (code : Code String)
deriving DecidableEq

namespace Declaration

def ofCode : Code String → Declaration
  | .product fields => code "product" (some fields) none none
  | .union fields => code "union" none (some fields) none
  | .vector element => code "vector" none none (some element)

def missingMember (name tag : String) : CodeError := .malformedCode name s!"missing `{tag}` member"

/-- What the declaration of `name` stands for. -/
def check (name : String) : Declaration → Except CodeError Definition
  | builtin b =>
    if Text.isBuiltin b then .ok (.builtin b)
    else .error (.malformedCode name s!"{b} is not a builtin name")
  | code tag product union vector =>
    let whole (member : Option (Code String)) : Except CodeError Definition :=
      match member with
      | some c => .ok (.code c)
      | none => .error (missingMember name tag)
    if tag = "product" then whole (product.map .product)
    else if tag = "union" then whole (union.map .union)
    else if tag = "vector" then whole (vector.map .vector)
    else .error (.malformedCode name s!"unknown constructor {tag}")

end Declaration

end StructuralTyping
