import StructuralTyping.Pattern.Forest
import StructuralTyping.Pattern.Join

/-!
# Pattern graphs

Patterns have labelled edges to other patterns. The edges of a class are those of its root, and
where they lead is a matter of classes too. Merging classes joins their shapes and collects their
edges; where two edges have one label, the classes they lead to are merged in turn. A class that
turns out to be a code is merged with the pattern of that code, which stands in the graph once, with
edges to the patterns of the codes it refers to.
-/
namespace StructuralTyping

structure PatternGraph where
  forest : PatternForest := {}
  edges : Array (NameMap Nat) := #[]
  /-- The node of each canonical code that has one. -/
  bound : NameMap Nat := ∅
deriving DecidableEq

/-- Operations on a graph, which stays as it is left by an operation that fails. -/
abbrev Build := EStateM PatternError PatternGraph

namespace PatternGraph

def size (g : PatternGraph) : Nat := g.forest.size

def find (g : PatternGraph) (id : Nat) : Nat := g.forest.find id

def node (g : PatternGraph) (id : Nat) : PatternNode := g.forest.node id

/-- The kind of the class of a node. -/
def kind (g : PatternGraph) (id : Nat) : PatternKind := (g.node (g.find id)).kind

/-- The edges stored at a node itself. -/
def ownEdges (g : PatternGraph) (id : Nat) : NameMap Nat := g.edges[id]?.getD ∅

/-- The edges of the class of a node. -/
def edgesOf (g : PatternGraph) (id : Nat) : NameMap Nat := g.ownEdges (g.find id)

/-- The root that the class of a node leads to under a label. -/
def target? (g : PatternGraph) (id : Nat) (label : String) : Option Nat :=
  ((g.edgesOf id).get? label).map g.find

def shape (g : PatternGraph) (id : Nat) : Shape :=
  ⟨g.kind id, (g.edgesOf id).map fun _ => ()⟩

/-- The roots, in ascending order. -/
def roots (g : PatternGraph) : List Nat := (List.range g.size).filter g.forest.isRoot

def pushNode (g : PatternGraph) (kind : PatternKind) (edges : NameMap Nat) : Nat × PatternGraph :=
  let (id, forest) := g.forest.add kind none
  (id, { g with forest, edges := g.edges.push edges })

def withEdge (g : PatternGraph) (id : Nat) (label : String) (target : Nat) : PatternGraph :=
  { g with edges := g.edges.modify id (·.insert label target) }

def withCode (g : PatternGraph) (name : String) (id : Nat) : PatternGraph :=
  { g with bound := g.bound.insert name id }

end PatternGraph

namespace Build

def addNode (kind : PatternKind) (edges : NameMap Nat) : Build Nat :=
  modifyGet fun g => g.pushNode kind edges

def setEdge (id : Nat) (label : String) (target : Nat) : Build Unit :=
  modify fun g => g.withEdge id label target

def mismatch {α : Type} (rule : String) (l r : Shape) : Build α :=
  throw (.structuralMismatch rule l.text r.text none)

end Build

/-- The codes that the pattern of a code has edges to. -/
def Repository.references? (repo : Repository) (name : String) : Option (List (String × String)) :=
  match repo.find name with
  | .code (.product fields) => some fields.entries
  | .code (.union fields) => some fields.entries
  | .code (.vector element) => some [(Text.vectorMember, element)]
  | .builtin _ => some []
  | .undefined => none

namespace Build

/-- The pattern of a code and of all codes it refers to. Only a code that had no pattern yet is
taken apart, so `fuel` bounds the number of codes. -/
def bindCode (repo : Repository) : Nat → String → Build Nat
  | 0, _ => throw .exhausted
  | fuel + 1, name => do
    match repo.canonical name with
    | none => throw (.code (.unknownCode name none))
    | some name =>
      match (← get).bound.get? name with
      | some id => return id
      | none =>
        let id ← addNode (.bound name) ∅
        modify fun g => g.withCode name id
        match repo.references? name with
        | none => throw (.code (.unknownCode name none))
        | some references =>
          references.forM fun (label, code) => do setEdge id label (← bindCode repo fuel code)
          return id

/-- The node of a code, of which there is one in the graph. -/
def boundNode (repo : Repository) (name : String) : Build Nat :=
  bindCode repo (repo.size + repo.aliases.size + 1) name

end Build

/-- Put a number at its place in an ascending list, unless it is there. -/
def insertAscending (n : Nat) : List Nat → List Nat
  | [] => [n]
  | m :: rest =>
    if n < m then n :: m :: rest else if n = m then m :: rest else m :: insertAscending n rest

/-- The distinct numbers of a list, in ascending order. -/
def ascending (ids : List Nat) : List Nat := ids.foldr insertAscending []

namespace PatternGraph

/-- Merge the shapes of classes one after the other; the first two that do not go together are the
error. -/
def mergeShapes (g : PatternGraph) (repo : Repository) :
    Shape → List Nat → Except (Shape × Shape) Shape
  | shape, [] => .ok shape
  | shape, root :: rest =>
    match shape.merge repo (g.shape root) with
    | none => .error (shape, g.shape root)
    | some merged => mergeShapes g repo merged rest

/-- Add a target under a label, after those that are there. -/
def arrive (targets : NameMap (Nat × List Nat)) (label : String) (target : Nat) :
    NameMap (Nat × List Nat) :=
  match targets.get? label with
  | none => targets.insert label (target, [])
  | some (first, others) => targets.insert label (first, others ++ [target])

/-- Where the edges of several roots lead: for each label the first target, then the others. -/
def targets (g : PatternGraph) (repo : Repository) (kind : PatternKind) (roots : List Nat) :
    NameMap (Nat × List Nat) :=
  (roots.flatMap fun root => (g.ownEdges root).entries).foldl
    (fun targets e => arrive targets (kind.memberLabel repo e.1) e.2) ∅

/-- The targets that meet: those of several edges under one label. -/
def meetings (targets : NameMap (Nat × List Nat)) : List (List Nat) :=
  (targets.values.filter fun t => !t.2.isEmpty).map fun t => t.1 :: t.2

/-- More than there can be merges, since each takes away a class. -/
def mergeBound (g : PatternGraph) : Nat := g.size + 1

end PatternGraph

namespace Build

/-- The root of the code if the kind is one. -/
def codeRoots (repo : Repository) : PatternKind → Build (List Nat)
  | .bound name => do
    let id ← boundNode repo name
    return [(← get).find id]
  | _ => return []

/-- Put a new root above the given ones, with the first of their edges under each label, and answer
the targets that meet. -/
def linkRoots (repo : Repository) (kind : PatternKind) (rule : String) (roots : List Nat) :
    Build (List (List Nat)) := do
  let g ← get
  match g.forest.link kind rule roots with
  | .error e => throw e
  | .ok (_, forest) =>
    let targets := g.targets repo kind roots
    let edges := targets.map fun t => t.1
    set { g with forest, edges := g.edges.push edges }
    return PatternGraph.meetings targets

/-- Merge the classes of the given nodes, then those of the targets that meet thereby. Each merge
takes away a class, so `fuel` bounds the number of classes. -/
def mergeClasses (repo : Repository) (rule : String) : Nat → List Nat → Build Bool
  | 0, _ => throw .exhausted
  | fuel + 1, ids => do
    let g ← get
    match ascending (ids.map g.find) with
    | [] | [_] => return false
    | first :: rest =>
      match g.mergeShapes repo (g.shape first) rest with
      | .error (l, r) => mismatch rule l r
      | .ok joined =>
        let more ← codeRoots repo joined.kind
        let roots := first :: rest ++ more.filter (· ∉ first :: rest)
        let meetings ← linkRoots repo joined.kind rule roots
        meetings.forM fun ids => do
          let _ ← mergeClasses repo rule fuel ids
        return true

/-- Merge the classes of the given nodes, and answer whether there were several. -/
def unify (repo : Repository) (rule : String) (ids : List Nat) : Build Bool := do
  mergeClasses repo rule (← get).mergeBound ids

/-- Give the class of `source` an edge, and answer whether that changed the graph. A second edge
under a label merges the targets. Otherwise only open patterns and vectors without member gain an
edge. -/
def addEdge (repo : Repository) (rule : String) (source : Nat) (label : String) (target : Nat) :
    Build Bool := do
  let g ← get
  let shape := g.shape source
  let label := shape.kind.memberLabel repo label
  match (g.edgesOf source).get? label with
  | some present => unify repo rule [present, target]
  | none =>
    if shape.kind.isOpen || (shape.kind = .vector && label = Text.vectorMember) then
      setEdge (g.find source) label target
      return true
    else mismatch rule shape ⟨.unconstrained, .ofList [label]⟩

end Build

end StructuralTyping
