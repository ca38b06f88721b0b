import StructuralTyping.Refinement
import StructuralTyping.Pattern.Graph

/-!
# Compressed pattern graphs

Classes that cannot be told apart along edges are presented as one. An open pattern may still
change, so it is told apart from every other.
-/
namespace StructuralTyping

structure CompressedGraph where
  nodes : List PatternNode
  /-- The edges of each node, to positions of nodes. -/
  edges : List (NameMap Nat)
  /-- The position that presents each pattern. -/
  index : List Nat
deriving DecidableEq

namespace CompressedGraph

def size (c : CompressedGraph) : Nat := c.nodes.length

/-- The position that presents a pattern. -/
def get? (c : CompressedGraph) (id : Nat) : Option Nat := c.index[id]?

def kind? (c : CompressedGraph) (position : Nat) : Option PatternKind :=
  c.nodes[position]?.map (·.kind)

def target? (c : CompressedGraph) (position : Nat) (label : String) : Option Nat :=
  c.edges[position]?.bind (·.get? label)

end CompressedGraph

namespace PatternGraph

/-- What a root shows: its shape, and itself if it is open. -/
def face (g : PatternGraph) (root : Nat) : Shape × Option Nat :=
  (g.shape root, if (g.kind root).isOpen then some root else none)

/-- The roots with what they show and the positions of the roots they lead to. -/
def system (g : PatternGraph) : System (Shape × Option Nat) :=
  let roots := g.roots.toArray
  let heads := roots.map g.face
  let next := roots.map fun root => (g.edgesOf root).values.map fun id => roots.idxOf (g.find id)
  { size := roots.size
    head := fun i => heads[i]?.getD (g.face i)
    next := fun i => next[i]?.getD [] }

/-- One node for all roots that cannot be told apart, in the order of their first roots. -/
def compressed (g : PatternGraph) : CompressedGraph :=
  let roots := g.roots
  let classes := g.system.coarsest
  let firsts := (List.range roots.length).filter fun i => System.classOf classes i = i
  let position (id : Nat) : Nat := firsts.idxOf (System.classOf classes (roots.idxOf (g.find id)))
  let shown := firsts.filterMap (roots[·]?)
  { nodes := shown.map g.node
    edges := shown.map fun root => (g.edgesOf root).map position
    index := (List.range g.size).map position }

end PatternGraph

end StructuralTyping
