/-!
# Directed multigraphs

A multigraph is a list of distinct vertices and a list of edges between them. Self loops and
parallel edges are allowed. Both lists keep the order in which they were given, so every traversal
is deterministic.
-/
namespace StructuralTyping

structure Digraph (α : Type) where
  vertices : List α
  edges : List (α × α)
  distinct : vertices.Nodup
  closed : ∀ e ∈ edges, e.1 ∈ vertices ∧ e.2 ∈ vertices

namespace Digraph
variable {α : Type} [DecidableEq α]

theorem nodup_eraseDups {β : Type} [BEq β] [LawfulBEq β] (as : List β) : as.eraseDups.Nodup := by
  match as with
  | [] => simp
  | a :: as =>
    rw [List.eraseDups_cons, List.nodup_cons]
    exact ⟨by simp [List.mem_eraseDups], nodup_eraseDups _⟩
termination_by as.length
decreasing_by exact Nat.lt_succ_of_le (List.length_filter_le _ _)

/-- The listed vertices come first, then the ends of the edges as they are met. -/
def ofLists (vertices : List α) (edges : List (α × α)) : Digraph α where
  vertices := (vertices ++ edges.flatMap fun e => [e.1, e.2]).eraseDups
  edges := edges
  distinct := nodup_eraseDups _
  closed e he := by
    simp only [List.mem_eraseDups, List.mem_append, List.mem_flatMap]
    exact ⟨.inr ⟨e, he, by simp⟩, .inr ⟨e, he, by simp⟩⟩

def contains (g : Digraph α) (v : α) : Bool := v ∈ g.vertices

/-- The targets of the edges that leave `v`, one for each edge. -/
def successors (g : Digraph α) (v : α) : List α :=
  g.edges.filterMap fun e => if e.1 = v then some e.2 else none

/-- The sources of the edges that enter `v`, one for each edge. -/
def predecessors (g : Digraph α) (v : α) : List α :=
  g.edges.filterMap fun e => if e.2 = v then some e.1 else none

def outDegree (g : Digraph α) (v : α) : Nat := (g.successors v).length

/-- Some path, maybe empty, leads from one vertex to the other. -/
inductive Reaches (g : Digraph α) : α → α → Prop
  | refl (v : α) : Reaches g v v
  | step {u v w : α} : (u, v) ∈ g.edges → Reaches g v w → Reaches g u w

omit [DecidableEq α] in
theorem Reaches.trans {g : Digraph α} {u v w : α} (h : Reaches g u v) (k : Reaches g v w) :
    Reaches g u w := by
  induction h with
  | refl => exact k
  | step e _ ih => exact .step e (ih k)

theorem mem_successors {g : Digraph α} {u v : α} : v ∈ g.successors u ↔ (u, v) ∈ g.edges := by
  simp [successors, List.mem_filterMap]

theorem mem_predecessors {g : Digraph α} {u v : α} : u ∈ g.predecessors v ↔ (u, v) ∈ g.edges := by
  simp only [predecessors, List.mem_filterMap, Prod.exists]
  exact ⟨by grind, fun h => ⟨u, v, h, by simp⟩⟩

end Digraph

end StructuralTyping
