import StructuralTyping.Inference.Constraint
import StructuralTyping.Pattern.Promotion

/-!
# Inference

All constraints are enforced again and again until none of them changes the graph. A pattern that
then leads to itself can only describe a union: if nothing fixes its constructor it becomes one, and
a product is refused. When nothing changes any more, patterns that describe exactly one code are
promoted to it.
-/
namespace StructuralTyping

structure InferenceOptions where
  promoteSingletons : Bool := true
  /-- Refuse relations that keep an open pattern. -/
  requireClosed : Bool := false

structure Inference where
  graph : PatternGraph
  promoted : List Promotion

namespace Build

/-- Enforce all constraints once, and answer whether that changed the graph. -/
def enforce (repo : Repository) : List Constraint → Build Bool
  | [] => return false
  | c :: rest => do
    let changed ← tryCatchThe PatternError (c.apply repo) fun e => throw (e.located c.span)
    return (← enforce repo rest) || changed

/-- Make a union of the class of a node that leads to itself. -/
def closeLoop (repo : Repository) (id : Nat) : Build Bool := do
  let g ← get
  let shape := g.shape id
  match shape.kind with
  | .openProduct | .closedProduct => throw (.loopInProduct shape.text)
  | .unconstrained | .closedUntyped =>
    let anchor ← addNode .openUnion (g.edgesOf id)
    unify repo "loop" [g.find id, anchor]
  | _ => return false

def closeLoopsAt (repo : Repository) : List Nat → Build Bool
  | [] => return false
  | id :: ids => do
    let changed ← closeLoop repo id
    return (← closeLoopsAt repo ids) || changed

/-- Make unions of the classes that lead to themselves, and answer whether that changed the graph.
-/
def closeLoops (repo : Repository) : Build Bool := do
  let g ← get
  closeLoopsAt repo (g.roots.filter fun root =>
    (g.edgesOf root).values.any fun id => g.find id = root)

/-- One round, and answer whether it changed the graph. -/
def round (repo : Repository) (constraints : List Constraint) : Build Bool := do
  if ← enforce repo constraints then return true else closeLoops repo

def rounds (repo : Repository) (constraints : List Constraint) : Nat → Build Unit
  | 0 => throw .exhausted
  | fuel + 1 => do
    if ← round repo constraints then rounds repo constraints fuel

/-- More than there can be rounds. A round that changes the graph merges classes, or raises the rank
of a class, or gives a class the label that a constraint asks for. -/
def roundBound (constraints : List Constraint) (g : PatternGraph) : Nat :=
  (g.size + 1) * (7 * g.size + 1) * (constraints.length + 1)

/-- Enforce all constraints until nothing changes. -/
def solve (repo : Repository) (constraints : List Constraint) : Build Unit := do
  rounds repo constraints (roundBound constraints (← get))

end Build

namespace PatternGraph

/-- As many patterns as asked for, about which nothing is known. -/
def blank (count : Nat) : PatternGraph :=
  { forest :=
      { nodes := .replicate count ⟨.unconstrained, none⟩
        parents := .replicate count none }
    edges := .replicate count ∅ }

/-- The first open end of a site. -/
def openEnd? (g : PatternGraph) (s : Site) : Option Nat :=
  [s.ends.input, s.ends.output].find? fun id => (g.kind id).isOpen

/-- The first relation that keeps an open pattern is an error. -/
def checkClosed (g : PatternGraph) (sites : List (String × List Site)) : Except PatternError Unit :=
  sites.forM fun (name, sites) =>
    match sites.findSome? fun s => (g.openEnd? s).map (s, ·) with
    | some (s, id) => .error (.unresolvedPattern name (g.shape id).text s.span)
    | none => .ok ()

end PatternGraph

namespace Relations

/-- The graph in which all constraints of the relations hold. -/
def solved (repo : Repository) (rels : Relations) (sites : List (String × List Site)) :
    Except PatternError PatternGraph :=
  let generateAndSolve : Build Unit := do
    let constraints ← siteConstraints repo rels.ends (sites.flatMap (·.2))
    Build.solve repo constraints
  match generateAndSolve (.blank rels.endCount) with
  | .error e _ => .error e
  | .ok _ g => .ok g

/-- Infer the patterns of all relations. The repository is returned in any case, since promotion
adds to it. -/
def infer (repo : Repository) (rels : Relations) (spans : SpanTable) (options : InferenceOptions) :
    Except PatternError Inference × Repository :=
  let sites := rels.sites spans
  match rels.solved repo sites with
  | .error e => (.error e, repo)
  | .ok g =>
    match if options.promoteSingletons then g.promote repo else (.ok [], g, repo) with
    | (.error e, _, repo) => (.error e, repo)
    | (.ok promoted, g, repo) =>
      match if options.requireClosed then g.checkClosed sites else .ok () with
      | .error e => (.error e, repo)
      | .ok () => (.ok ⟨g, promoted⟩, repo)

end Relations

end StructuralTyping
