import StructuralTyping.Digraph.Components

/-!
# Dependency order

An edge from `a` to `b` says that `a` depends on `b`. `topological` lists vertices after all that
they depend on, as far as that is possible: a vertex that reaches a cycle is left out. Collapsing
each strongly connected component gives a graph without cycles, so the components can all be listed
in dependency order.
-/
namespace StructuralTyping.Digraph
variable {α : Type} [DecidableEq α]

/-- Take one from the count of `v`. -/
def settle (v : α) (counts : List (α × Nat)) : List (α × Nat) :=
  counts.map fun c => if c.1 = v then (c.1, c.2 - 1) else c

/-- Emit the vertices of the queue, each time settling one edge of every predecessor; a predecessor
with no edges left to settle joins the queue. `fuel` bounds the number of vertices still to emit. -/
def drain (g : Digraph α) : Nat → List α → List (α × Nat) → List α
  | 0, _, _ => []
  | _, [], _ => []
  | fuel + 1, v :: queue, counts =>
    let release (state : List α × List (α × Nat)) (u : α) : List α × List (α × Nat) :=
      let counts := settle u state.2
      (if counts.lookup u = some 0 then state.1 ++ [u] else state.1, counts)
    let (queue, counts) := (g.predecessors v).foldl release (queue, counts)
    v :: drain g fuel queue counts

/-- The vertices that reach no cycle, each after all its successors. -/
def topological (g : Digraph α) : List α :=
  drain g g.vertices.length (g.vertices.filter (g.outDegree · = 0))
    (g.vertices.map fun v => (v, g.outDegree v))

structure Condensation (α : Type) where
  components : List (List α)
  /-- Edges between the positions of distinct components, one for each pair at most. -/
  graph : Digraph Nat

def condensation (g : Digraph α) : Condensation α :=
  let components := g.components
  let position v := components.findIdx (v ∈ ·)
  let crossings := g.vertices.flatMap fun v =>
    (g.successors v).map fun w => (position v, position w)
  { components
    graph := .ofLists (List.range components.length)
      (crossings.filter fun e => e.1 ≠ e.2).eraseDups }

/-- The components, each after all others that it has an edge to. -/
def Condensation.leavesFirst (c : Condensation α) : List (List α) :=
  c.graph.topological.filterMap (c.components[·]?)

end StructuralTyping.Digraph
