import StructuralTyping.Inference.Site
import StructuralTyping.Pattern.Filtering

/-!
# Constraints

Each node of a relation says which patterns have to be one, or that one pattern has an edge to
another. Where a node fixes a shape, a pattern of that shape is added to the graph for the
constraints to refer to.
-/
namespace StructuralTyping

inductive Demand
  | same (patterns : List Nat)
  | edge (source : Nat) (label : String) (target : Nat)
deriving DecidableEq

structure Constraint where
  rule : String
  demand : Demand
  span : Option Text.Span

namespace Constraint

/-- Enforce a constraint, and answer whether that changed the graph. -/
def apply (repo : Repository) (c : Constraint) : Build Bool :=
  match c.demand with
  | .same patterns => Build.unify repo c.rule patterns
  | .edge source label target => Build.addEdge repo c.rule source label target

end Constraint

/-- The builtin of a literal. -/
def Literal.builtin : Literal → String
  | int _ => "@int"
  | str _ => "@string"
  | bool _ => "@bool"

namespace Site

/-- Chain the ends of the items of a composition from its input to its output. -/
def chain (output : Nat) : Nat → List Ends → List (List Nat)
  | previous, [] => [[previous, output]]
  | previous, p :: rest => [previous, p.input] :: chain output p.output rest

/-- What the fields of a product demand, and the edges of its output: the first field with a label
makes the edge, and later ones have to agree with it. -/
def fieldDemands (input : Nat) :
    NameMap Nat → List (String × Ends) → List (List Nat) × NameMap Nat
  | edges, [] => ([], edges)
  | edges, (label, p) :: rest =>
    match edges.get? label with
    | some first =>
      let (demands, edges) := fieldDemands input edges rest
      ([input, p.input] :: [first, p.output] :: demands, edges)
    | none =>
      let (demands, edges) := fieldDemands input (edges.insert label p.output) rest
      ([input, p.input] :: demands, edges)

/-- The constraints of a node. -/
def constraints (repo : Repository) (definitions : NameMap Ends) (s : Site) :
    Build (List Constraint) := do
  let ⟨input, output⟩ := s.ends
  let same (rule : String) (demands : List (List Nat)) : List Constraint :=
    demands.map fun ids => ⟨rule, .same ids, s.span⟩
  match s.node with
  | .product [] => do
    let unit ← Build.boundNode repo Repository.unit
    return same "unit" [[output, unit]]
  | .product [(label, _)] => do
    let inputs := s.children.map fun p => [input, p.input]
    let edges := .ofList (s.children.map fun p => (label, p.output))
    let anchor ← Build.addNode .openUnion edges
    return same "union constructor" (inputs ++ [[output, anchor]])
  | .product fields => do
    let (demands, edges) := fieldDemands input ∅ ((fields.map (·.1)).zip s.children)
    let anchor ← Build.addNode .closedProduct edges
    return same "product" (demands ++ [[output, anchor]])
  | .union [] => do
    let anchor ← Build.addNode .closedUnion ∅
    return same "empty union" [[output, anchor]]
  | .union _ =>
    return same "union" [input :: s.children.map (·.input), output :: s.children.map (·.output)]
  | .vector [] => do
    let anchor ← Build.addNode .vector ∅
    return same "empty vector" [[output, anchor]]
  | .vector _ => do
    let member ← Build.addNode .unconstrained ∅
    let anchor ← Build.addNode .vector (.ofList [(Text.vectorMember, member)])
    return same "vector" [[output, anchor], input :: s.children.map (·.input),
      member :: s.children.map (·.output)]
  | .comp [] => return same "identity" [[input, output]]
  | .comp _ => return same "composition" (chain output input s.children)
  | .ref name => match definitions.get? name with
    | some p => return same "reference" [[input, p.input], [output, p.output]]
    | none => do
      if name = "true" ∨ name = "false" then
        let bool ← Build.boundNode repo "@bool"
        return same "boolean" [[output, bool]]
      else throw (.unknownRelation name s.span)
  | .dot label => return [⟨"dot", .edge input label output, s.span⟩]
  | .filter f => do
    let anchor ← Build.filterNode repo f
    return same "filter" [[input, output], [input, anchor]]
  | .code name => do
    let code ← Build.boundNode repo name
    return same "code" [[input, code], [input, output]]
  | .identity => return same "identity" [[input, output]]
  | .literal l => do
    let builtin ← Build.boundNode repo l.builtin
    return same "literal" [[output, builtin]]

end Site

/-- The constraints of several nodes. -/
def siteConstraints (repo : Repository) (definitions : NameMap Ends) :
    List Site → Build (List Constraint)
  | [] => return []
  | s :: rest => do
    let own ← s.constraints repo definitions
    return own ++ (← siteConstraints repo definitions rest)

end StructuralTyping
