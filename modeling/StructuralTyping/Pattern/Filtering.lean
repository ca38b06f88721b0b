import StructuralTyping.Pattern.Graph
import StructuralTyping.Relation.Filter

/-!
# Filters on codes and patterns

A filter can be matched against a code, which binds its variables to codes, or turned into a pattern
that can be merged with others. Occurrences of one variable share a code, and a pattern.
-/
namespace StructuralTyping

/-- The fields of a code if it is of the kind. -/
def FieldsKind.fieldsOf? : FieldsKind → Lookup → Option (NameMap String)
  | .any, .code (.product fields) | .product, .code (.product fields) => some fields
  | .any, .code (.union fields) | .union, .code (.union fields) => some fields
  | _, _ => none

/-- The kind of the patterns that a filter on fields admits. -/
def FieldsKind.pattern : FieldsKind → Bool → PatternKind
  | .any, true => .unconstrained
  | .any, false => .closedUntyped
  | .product, true => .openProduct
  | .product, false => .closedProduct
  | .union, true => .openUnion
  | .union, false => .closedUnion

namespace Filter

mutual

/-- Match a code under the bindings found so far, and answer all bindings. -/
def matchFrom (repo : Repository) : Filter → String → NameMap String → Option (NameMap String)
  | var name, subject, bindings => do
    let c ← repo.canonical subject
    match bindings.get? name with
    | some d => if d = c then some bindings else none
    | none => some (bindings.insert name c)
  | code name, subject, bindings => do
    let c ← repo.canonical subject
    if repo.canonical name = some c then some bindings else none
  | fields kind fs isOpen, subject, bindings => do
    let c ← repo.canonical subject
    let present ← kind.fieldsOf? (repo.find c)
    if !isOpen && present.size ≠ fs.length then none
    else matchFieldsFrom repo fs present bindings
  | vector element, subject, bindings => do
    let c ← repo.canonical subject
    match repo.find c with
    | .code (.vector e) => matchFrom repo element e bindings
    | _ => none

def matchFieldsFrom (repo : Repository) :
    List (String × Filter) → NameMap String → NameMap String → Option (NameMap String)
  | [], _, bindings => some bindings
  | (label, f) :: fs, present, bindings => do
    let bindings ← matchFrom repo f (← present.get? label) bindings
    matchFieldsFrom repo fs present bindings

end

/-- The canonical code of each variable if the code has the shape that the filter asks for. -/
def matchCode? (repo : Repository) (subject : String) (f : Filter) : Option (NameMap String) :=
  f.matchFrom repo subject ∅

mutual

/-- Add the pattern of a filter, given the nodes of the variables met so far. -/
def buildFrom (repo : Repository) : Filter → NameMap Nat → Build (Nat × NameMap Nat)
  | var name, vars =>
    match vars.get? name with
    | some id => return (id, vars)
    | none => do
      let id ← Build.addNode .unconstrained ∅
      return (id, vars.insert name id)
  | code name, vars => do return (← Build.boundNode repo name, vars)
  | fields kind fs isOpen, vars => do
    let (edges, vars) ← buildFieldsFrom repo fs vars
    return (← Build.addNode (kind.pattern isOpen) (.ofList edges), vars)
  | vector element, vars => do
    let (member, vars) ← buildFrom repo element vars
    return (← Build.addNode .vector (.ofList [(Text.vectorMember, member)]), vars)

def buildFieldsFrom (repo : Repository) :
    List (String × Filter) → NameMap Nat → Build (List (String × Nat) × NameMap Nat)
  | [], vars => return ([], vars)
  | (label, f) :: fs, vars => do
    let (id, vars) ← buildFrom repo f vars
    let (edges, vars) ← buildFieldsFrom repo fs vars
    return ((label, id) :: edges, vars)

end

end Filter

/-- Add the pattern of a filter. -/
def Build.filterNode (repo : Repository) (f : Filter) : Build Nat :=
  (·.1) <$> f.buildFrom repo ∅

end StructuralTyping
