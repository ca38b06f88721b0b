import StructuralTyping.Pattern.Graph

/-!
# Promotion of patterns to codes

A closed pattern from which no pattern can be reached that may still change describes exactly one
code. Promotion registers these codes and binds the patterns to them.
-/
namespace StructuralTyping

structure Promotion where
  pattern : Nat
  /-- The canonical name of the code. -/
  code : String
deriving DecidableEq

namespace PatternGraph

/-- Whether a class may still come to describe another code. -/
def isAmbiguous (g : PatternGraph) (id : Nat) : Bool :=
  match g.kind id with
  | .unconstrained | .openProduct | .openUnion | .closedUntyped => true
  | .vector => (g.target? id Text.vectorMember).isNone
  | .closedProduct | .closedUnion | .bound _ => false

/-- The edges of all roots, each as the root it leads to and the root it belongs to. -/
def incoming (g : PatternGraph) : List (Nat × Nat) :=
  g.roots.flatMap fun root => (g.edgesOf root).values.map fun target => (g.find target, root)

end PatternGraph

/-- A search for the roots from which some roots can be reached. -/
structure Tainting where
  /-- The tainted roots that were not looked at yet, the last one first. -/
  stack : List Nat
  tainted : List Nat

namespace Tainting

def taint (s : Tainting) (root : Nat) : Tainting :=
  if root ∈ s.tainted then s else ⟨root :: s.stack, root :: s.tainted⟩

/-- The roots that lead to a root, once for each edge. -/
def sources (incoming : List (Nat × Nat)) (root : Nat) : List Nat :=
  incoming.filterMap fun e => if e.1 = root then some e.2 else none

/-- Taint what leads to a tainted root until all tainted roots were looked at. A root is put on the
stack when it is tainted, which happens once, so `fuel` bounds the number of roots. -/
def run (incoming : List (Nat × Nat)) : Nat → Tainting → List Nat
  | _, ⟨[], tainted⟩ => tainted
  | 0, ⟨_ :: _, tainted⟩ => tainted
  | fuel + 1, ⟨root :: stack, tainted⟩ =>
    run incoming fuel ((sources incoming root).foldl taint ⟨stack, tainted⟩)

end Tainting

namespace PatternGraph

/-- The roots from which an ambiguous root can be reached. -/
def taintedRoots (g : PatternGraph) : List Nat :=
  let ambiguous := g.roots.filter g.isAmbiguous
  Tainting.run g.incoming g.roots.length ⟨ambiguous.reverse, ambiguous⟩

/-- The roots that describe exactly one code and are not bound to it yet, in ascending order. -/
def singletons (g : PatternGraph) : List Nat :=
  let tainted := g.taintedRoots
  g.roots.filter fun root => root ∉ tainted && match g.kind root with
    | .closedProduct | .closedUnion | .vector => true
    | _ => false

/-- The name of a pattern while it is registered. -/
def localName (id : Nat) : String := s!":P{id}"

/-- The name of the code that an edge leads to. -/
def codeReference (g : PatternGraph) (id : Nat) : String :=
  (g.kind id).bound?.getD (localName (g.find id))

/-- The code that a closed pattern describes. -/
def describedCode (g : PatternGraph) (id : Nat) : Except CodeError (Code String) :=
  let fields := (g.edgesOf id).map g.codeReference
  match g.kind id with
  | .closedProduct => .ok (.product fields)
  | .closedUnion => .ok (.union fields)
  | .vector => match g.target? id Text.vectorMember with
    | some member => .ok (.vector (g.codeReference member))
    | none => .error (.impossible s!"vector pattern {id} without element")
  | kind => .error (.impossible s!"pattern {id} of kind {kind.title} is not promotable")

def describedCodes (g : PatternGraph) (ids : List Nat) : Except CodeError Codes :=
  ids.foldlM (fun (codes : Codes) id => do
    return codes.insert (localName id) (← g.describedCode id)) ∅

end PatternGraph

namespace Build

/-- Bind patterns to the codes that were registered for them. -/
def bindPromoted (repo : Repository) (names : NameMap String) : List Nat → Build (List Promotion)
  | [] => return []
  | id :: ids => do
    let name := PatternGraph.localName id
    match names.get? name with
    | none => throw (.code (.impossible s!"{name} lost its representative"))
    | some code =>
      let node ← boundNode repo code
      let _ ← unify repo "promote" [id, node]
      return ⟨id, code⟩ :: (← bindPromoted repo names ids)

end Build

namespace PatternGraph

/-- Register the given patterns as codes in one batch and bind them. Graph and repository are
returned in any case. -/
def turnIntoCodes (g : PatternGraph) (repo : Repository) (ids : List Nat) :
    Except PatternError (List Promotion) × PatternGraph × Repository :=
  if ids.isEmpty then (.ok [], g, repo)
  else match g.describedCodes ids with
    | .error e => (.error (.code e), g, repo)
    | .ok codes => match repo.registerCodes codes with
      | (.error e, repo) => (.error (.code e), g, repo)
      | (.ok names, repo) => match Build.bindPromoted repo names ids g with
        | .error e g => (.error e, g, repo)
        | .ok promotions g => (.ok promotions, g, repo)

/-- Turn all patterns that describe exactly one code into codes. -/
def promote (g : PatternGraph) (repo : Repository) :
    Except PatternError (List Promotion) × PatternGraph × Repository :=
  g.turnIntoCodes repo g.singletons

end PatternGraph

end StructuralTyping
