import StructuralTyping.Pattern.Error
import StructuralTyping.Pattern.Kind

/-!
# The forest of patterns

Patterns form classes, each the nodes of one tree. Merging classes leaves the existing nodes as they
are and adds a new node above their roots, so a parent is always younger than its children.
-/
namespace StructuralTyping

structure PatternNode where
  kind : PatternKind
  /-- The rule that merged the classes below the node. -/
  rule : Option String
deriving DecidableEq

structure PatternForest where
  nodes : Array PatternNode := #[]
  parents : Array (Option Nat) := #[]
deriving DecidableEq

namespace PatternForest

def size (f : PatternForest) : Nat := f.nodes.size

def node (f : PatternForest) (id : Nat) : PatternNode := f.nodes[id]?.getD ⟨.unconstrained, none⟩

def parent? (f : PatternForest) (id : Nat) : Option Nat := f.parents[id]?.join

def isRoot (f : PatternForest) (id : Nat) : Bool := (f.parent? id).isNone

def climb (f : PatternForest) : Nat → Nat → Nat
  | 0, id => id
  | fuel + 1, id => match f.parent? id with
    | none => id
    | some p => climb f fuel p

/-- The root of the class of a node. Parents are younger, so no path is longer than the forest. -/
def find (f : PatternForest) (id : Nat) : Nat := f.climb f.size id

def add (f : PatternForest) (kind : PatternKind) (rule : Option String) : Nat × PatternForest :=
  (f.size, { nodes := f.nodes.push ⟨kind, rule⟩, parents := f.parents.push none })

/-- The first of the nodes that is bound to a code other than the kind's. -/
def conflict (f : PatternForest) (kind : PatternKind) (ids : List Nat) : Option String :=
  ids.findSome? fun id => (f.node id).kind.bound?.filter (kind.bound? ≠ some ·)

/-- The forest with a new node above the given ones. -/
def adopt (f : PatternForest) (kind : PatternKind) (rule : String) (ids : List Nat) :
    PatternForest :=
  let (id, grown) := f.add kind (some rule)
  let put (parents : Array (Option Nat)) (child : Nat) := parents.setIfInBounds child (some id)
  { grown with parents := ids.foldl put grown.parents }

/-- Put a new node above the given ones. A bound node goes only below a node bound to the same
code. -/
def link (f : PatternForest) (kind : PatternKind) (rule : String) (ids : List Nat) :
    Except PatternError (Nat × PatternForest) :=
  match f.conflict kind ids with
  | some code => .error (.forestInvariantViolation code (kind.bound?.getD "an unbound pattern"))
  | none => .ok (f.size, f.adopt kind rule ids)

end PatternForest

end StructuralTyping
