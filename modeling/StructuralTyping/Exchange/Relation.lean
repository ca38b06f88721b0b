import StructuralTyping.Exchange.Declaration
import StructuralTyping.Relation.Basic

/-!
# Relations and units as data

A relation or filter is an object with one member, named for what it is; the identity may also be a
string. Fields and units may be written as objects, with members in any order and unknown members
ignored, or as lists of their parts. A unit holds code declarations and relations.
-/
namespace StructuralTyping

/-- A name without content, as a string or as an object whose one member is null. -/
def Json.bareName? : Json → Option String
  | .str name => some name
  | .obj [(name, .null)] => some name
  | _ => none

def FieldsKind.ofJson? (j : Json) : Option FieldsKind :=
  match j.bareName? with
  | some "any" => some .any
  | some "product" => some .product
  | some "union" => some .union
  | _ => none

def FieldsKind.toJson : FieldsKind → Json
  | .any => .str "any"
  | .product => .str "product"
  | .union => .str "union"

namespace Filter

/-- List the fields in ascending order of their labels. -/
def arrange (fields : List (String × Filter)) : List (String × Filter) :=
  (NameMap.ofList fields).entries

mutual

def ofJson? : Json → Option Filter
  | .obj [(tag, body)] =>
    match tag with
    | "var" => body.string?.map var
    | "code" => body.string?.map code
    | "vector" => (ofJson? body).map vector
    | "fields" => fieldsOfJson? body
    | _ => none
  | _ => none

def fieldsOfJson? : Json → Option Filter
  | .arr [kind, table] => do
    return fields (← FieldsKind.ofJson? kind) (arrange (← tableOfJson? table)) false
  | .arr [kind, table, isOpen] => do
    return fields (← FieldsKind.ofJson? kind) (arrange (← tableOfJson? table)) (← isOpen.bool?)
  | .obj members => do
    let kind ← FieldsKind.ofJson? (← Json.member "kind" members)
    let table ← tableMember? members
    let isOpen ← match Json.member "open" members with
      | none => some false
      | some b => b.bool?
    return fields kind (arrange table) isOpen
  | _ => none

def tableMember? : List (String × Json) → Option (List (String × Filter))
  | [] => none
  | (key, value) :: rest => if key = "fields" then tableOfJson? value else tableMember? rest

def tableOfJson? : Json → Option (List (String × Filter))
  | .obj members => entriesOfJson? members
  | _ => none

def entriesOfJson? : List (String × Json) → Option (List (String × Filter))
  | [] => some []
  | (label, value) :: rest => do return (label, ← ofJson? value) :: (← entriesOfJson? rest)

end

mutual

def toJson : Filter → Json
  | var name => .obj [("var", .str name)]
  | code name => .obj [("code", .str name)]
  | fields kind fs isOpen =>
    .obj [("fields", .obj [("kind", kind.toJson), ("fields", .obj (entriesToJson fs)),
      ("open", .bool isOpen)])]
  | vector element => .obj [("vector", toJson element)]

def entriesToJson : List (String × Filter) → List (String × Json)
  | [] => []
  | (label, f) :: rest => (label, toJson f) :: entriesToJson rest

end

end Filter

namespace Literal

def ofJson? : Json → Option Literal
  | .obj [("int", .int n)] =>
    if Int64.minValue.toInt ≤ n ∧ n ≤ Int64.maxValue.toInt then some (int (.ofInt n)) else none
  | .obj [("str", .str s)] => some (str s)
  | .obj [("bool", .bool b)] => some (bool b)
  | _ => none

def toJson : Literal → Json
  | int n => .obj [("int", .int n.toInt)]
  | str s => .obj [("str", .str s)]
  | bool b => .obj [("bool", .bool b)]

end Literal

namespace Relation

mutual

def ofJson? : Json → Option Relation
  | .str name => if name = "identity" then some identity else none
  | .obj [(tag, body)] =>
    match tag with
    | "product" => productOfJson? body
    | "union" => (listOfJson? body).map union
    | "vector" => (listOfJson? body).map vector
    | "comp" => (listOfJson? body).map comp
    | "ref" => body.string?.map ref
    | "dot" => body.string?.map dot
    | "code" => body.string?.map code
    | "filter" => (Filter.ofJson? body).map filter
    | "literal" => (Literal.ofJson? body).map literal
    | "identity" => match body with
      | .null => some identity
      | _ => none
    | _ => none
  | _ => none

def listOfJson? : Json → Option (List Relation)
  | .arr items => itemsOfJson? items
  | _ => none

def itemsOfJson? : List Json → Option (List Relation)
  | [] => some []
  | item :: rest => do return (← ofJson? item) :: (← itemsOfJson? rest)

def productOfJson? : Json → Option Relation
  | .arr items => (fieldsOfJson? items).map product
  | _ => none

def fieldsOfJson? : List Json → Option (List (String × Relation))
  | [] => some []
  | item :: rest => do return (← fieldOfJson? item) :: (← fieldsOfJson? rest)

def fieldOfJson? : Json → Option (String × Relation)
  | .arr [label, body] => do return (← label.string?, ← ofJson? body)
  | .obj members => do
    let label ← (← Json.member "label" members).string?
    return (label, ← bodyMember? members)
  | _ => none

def bodyMember? : List (String × Json) → Option Relation
  | [] => none
  | (key, value) :: rest => if key = "exp" then ofJson? value else bodyMember? rest

end

mutual

def toJson : Relation → Json
  | product fields => .obj [("product", .arr (fieldsToJson fields))]
  | union rs => .obj [("union", .arr (itemsToJson rs))]
  | vector rs => .obj [("vector", .arr (itemsToJson rs))]
  | comp rs => .obj [("comp", .arr (itemsToJson rs))]
  | ref name => .obj [("ref", .str name)]
  | dot label => .obj [("dot", .str label)]
  | filter f => .obj [("filter", f.toJson)]
  | code name => .obj [("code", .str name)]
  | identity => .str "identity"
  | literal l => .obj [("literal", l.toJson)]

def itemsToJson : List Relation → List Json
  | [] => []
  | r :: rs => toJson r :: itemsToJson rs

def fieldsToJson : List (String × Relation) → List Json
  | [] => []
  | (label, r) :: fields => .obj [("label", .str label), ("exp", toJson r)] :: fieldsToJson fields

end

end Relation

/-- What is compiled at once: declarations of codes and definitions of relations. -/
structure CompilationUnit where
  codes : NameMap Declaration := ∅
  relations : Relations := ∅

namespace CompilationUnit

/-- A member that may be absent but not null. -/
def memberOr {α : Type} (read : Json → Option α) (fallback : α) (key : String)
    (members : List (String × Json)) : Option α :=
  match Json.member key members with
  | none => some fallback
  | some value => read value

def readCodes : Json → Option (NameMap Declaration) := Json.mapOf Declaration.ofJson?

def readRelations : Json → Option Relations := Json.mapOf Relation.ofJson?

def ofJson? : Json → Option CompilationUnit
  | .obj members => do
    return ⟨← memberOr readCodes ∅ "codes" members, ← memberOr readRelations ∅ "rels" members⟩
  | .arr [] => some {}
  | .arr [codes] => do return { codes := ← readCodes codes }
  | .arr [codes, relations] => do return ⟨← readCodes codes, ← readRelations relations⟩
  | _ => none

def toJson (u : CompilationUnit) : Json :=
  .obj [("codes", Json.ofMap Declaration.toJson u.codes),
    ("rels", Json.ofMap Relation.toJson u.relations)]

end CompilationUnit

end StructuralTyping
