import Mathlib.Data.Finset.Card
import Mathlib.Logic.Relation
import StructuralTyping.Proofs.DependencyOrder

/-!
# Vertices that reach no cycle

The emission of vertices goes on in two kinds of steps: the first vertex of the queue is emitted,
and then the edges that lead to it are settled one by one at their sources. Whenever an edge is
settled, the count of its source is positive, since it is the number of edges of the source that are
still to be settled. The vertices that are emitted in the end are those that reach no cycle: along a
cycle, each vertex would have to be emitted before itself, and if a vertex is left out, so is one of
its successors. Main statement: `topological_exact`.
-/
namespace StructuralTyping.Digraph
variable {α : Type} {g : Digraph α} {u v w : α}

/-- A path that is not empty leads from the vertex back to itself. -/
def OnCycle (g : Digraph α) (v : α) : Prop := ∃ w, (v, w) ∈ g.edges ∧ g.Reaches w v

/-- No cycle can be reached from the vertex. -/
def AvoidsCycles (g : Digraph α) (v : α) : Prop := ∀ w, g.Reaches v w → ¬g.OnCycle w

theorem AvoidsCycles.of_edge (h : g.AvoidsCycles v) (he : (v, w) ∈ g.edges) : g.AvoidsCycles w :=
  fun x hx => h x (.step he hx)

/-- What holds of a vertex if it does of its successors holds of every vertex that reaches no cycle.
-/
theorem AvoidsCycles.induction {p : α → Prop} (h : g.AvoidsCycles v) (hv : v ∈ g.vertices)
    (hp : ∀ v ∈ g.vertices, (∀ w, (v, w) ∈ g.edges → p w) → p v) : p v := by
  classical
  -- A successor reaches fewer vertices, since it does not reach back.
  induction hcard : (g.vertices.toFinset.filter (g.Reaches v)).card using Nat.strong_induction_on
    generalizing v with
  | _ n ih =>
    refine hp v hv fun w hw => ih _ ?_ (h.of_edge hw) (g.closed _ hw).2 rfl
    rw [← hcard]
    refine Finset.card_lt_card ((Finset.ssubset_iff_of_subset fun x hx => ?_).2 ⟨v, ?_, ?_⟩)
    · rw [Finset.mem_filter] at hx ⊢
      exact ⟨hx.1, .step hw hx.2⟩
    · simpa [hv] using Reaches.refl v
    · simpa [hv] using fun hback => h v (.refl v) ⟨w, hw, hback⟩

variable [DecidableEq α] {order : List α}

section Order

/-- Every vertex of a list in dependency order stands after its successors. -/
theorem DependencyFirst.idxOf_lt (h : g.DependencyFirst order) (hnodup : order.Nodup)
    (he : (u, v) ∈ g.edges) (hu : u ∈ order) : order.idxOf v < order.idxOf u := by
  induction h with
  | nil => simp at hu
  | @snoc order w hbefore hsuccessors ih =>
    obtain ⟨hrest, -, hapart⟩ := List.nodup_append.1 hnodup
    have hw : w ∉ order := fun hin => hapart w hin w List.mem_cons_self rfl
    rcases List.mem_append.1 hu with hu | hu
    · have hlt := ih hrest hu
      have hv : v ∈ order := List.idxOf_lt_length_iff.1 (hlt.trans (List.idxOf_lt_length_of_mem hu))
      rwa [List.idxOf_append_of_mem hv, List.idxOf_append_of_mem hu]
    · obtain rfl := List.mem_singleton.1 hu
      have hv := hsuccessors v he
      rw [List.idxOf_append_of_mem hv, List.idxOf_append_of_notMem hw]
      exact Nat.lt_add_right _ (List.idxOf_lt_length_of_mem hv)

theorem idxOf_lt_of_edge (he : (u, v) ∈ g.edges) (hu : u ∈ g.topological) :
    g.topological.idxOf v < g.topological.idxOf u := by
  obtain ⟨horder, hnodup, -⟩ := topological_spec g
  exact horder.idxOf_lt hnodup he hu

theorem mem_topological_of_reaches (hu : u ∈ g.topological) (h : g.Reaches u v) :
    v ∈ g.topological :=
  h.mem_of_closed (fun x hx => ((topological_spec g).2.2 x |>.1 hx).2) hu

theorem idxOf_le_of_reaches (hu : u ∈ g.topological) (h : g.Reaches u v) :
    g.topological.idxOf v ≤ g.topological.idxOf u := by
  induction h with
  | refl => exact Nat.le_refl _
  | @step u x v he _ ih =>
    have hx := mem_topological_of_reaches hu (.single he)
    exact (ih hx).trans (idxOf_lt_of_edge he hu).le

/-- Emitted are the vertices that reach no cycle. -/
theorem mem_topological_iff : v ∈ g.topological ↔ v ∈ g.vertices ∧ g.AvoidsCycles v := by
  have hiff := (topological_spec g).2.2
  constructor
  · refine fun hv => ⟨((hiff v).1 hv).1, fun w hw ⟨x, he, hback⟩ => ?_⟩
    have hw' := mem_topological_of_reaches hv hw
    have hx := mem_topological_of_reaches hw' (.single he)
    exact absurd (idxOf_le_of_reaches hx hback) (idxOf_lt_of_edge he hw').not_ge
  · rintro ⟨hv, h⟩
    exact h.induction hv fun v hv hsuccessors => (hiff v).2 ⟨hv, hsuccessors⟩

end Order

section Steps

/-- A moment of the emission: the vertices that are emitted, the sources of the edges to the last of
them that are still to be settled, the queue, and the counts. -/
structure Emission (α : Type) where
  emitted : List α := []
  todo : List α := []
  queue : List α
  counts : List (α × Nat)

namespace Emission

/-- Nothing is emitted yet, and the vertices without edges are queued. -/
def start (g : Digraph α) : Emission α where
  queue := g.vertices.filter (g.outDegree · = 0)
  counts := g.vertices.map fun v => (v, g.outDegree v)

inductive Step (g : Digraph α) : Emission α → Emission α → Prop
  | emit {emitted queue : List α} {v : α} {counts : List (α × Nat)} :
      Step g ⟨emitted, [], v :: queue, counts⟩ ⟨emitted ++ [v], g.predecessors v, queue, counts⟩
  | settle {emitted todo queue : List α} {u : α} {counts : List (α × Nat)} :
      Step g ⟨emitted, u :: todo, queue, counts⟩
        ⟨emitted, todo, (release (queue, counts) u).1, (release (queue, counts) u).2⟩

/-- Any number of steps. -/
abbrev Run (g : Digraph α) : Emission α → Emission α → Prop := Relation.ReflTransGen (Step g)

variable {emitted todo queue : List α} {counts : List (α × Nat)}

theorem run_settle (todo : List α) : Run g ⟨emitted, todo, queue, counts⟩
    ⟨emitted, [], (todo.foldl release (queue, counts)).1,
      (todo.foldl release (queue, counts)).2⟩ := by
  induction todo generalizing queue counts with
  | nil => exact .refl
  | cons u todo ih => exact .head .settle ih

/-- Draining a queue emits vertices by steps, until the queue is empty or all fuel is used. -/
theorem run_drain (fuel : Nat) : ∃ queue' counts', Run g ⟨emitted, [], queue, counts⟩
    ⟨emitted ++ g.drain fuel queue counts, [], queue', counts'⟩ := by
  induction fuel generalizing emitted queue counts with
  | zero => exact ⟨queue, counts, by simpa [drain] using .refl⟩
  | succ fuel ih =>
    cases queue with
    | nil => exact ⟨[], counts, by simpa [drain] using .refl⟩
    | cons v queue =>
      obtain ⟨queue', counts', hrest⟩ := @ih (emitted ++ [v])
        ((g.predecessors v).foldl release (queue, counts)).1
        ((g.predecessors v).foldl release (queue, counts)).2
      refine ⟨queue', counts', .head .emit ((run_settle _).trans ?_)⟩
      rw [drain_cons]
      rwa [List.append_assoc] at hrest

theorem Step.draining {s t : Emission α} (h : Step g s t)
    (hs : Draining g s.emitted s.todo s.queue s.counts ∧ ∀ u ∈ s.todo, u ∈ g.vertices) :
    Draining g t.emitted t.todo t.queue t.counts ∧ ∀ u ∈ t.todo, u ∈ g.vertices := by
  cases h with
  | emit => exact ⟨hs.1.emit, fun u hu => (g.closed _ (mem_predecessors.1 hu)).1⟩
  | settle =>
    obtain ⟨hu, htodo⟩ := List.forall_mem_cons.1 hs.2
    exact ⟨hs.1.release hu, htodo⟩

/-- The moments that the emission of the vertices of a graph comes to. -/
def Occurs (g : Digraph α) (s : Emission α) : Prop := Run g (start g) s

theorem Occurs.draining {s : Emission α} (h : Occurs g s) :
    Draining g s.emitted s.todo s.queue s.counts ∧ ∀ u ∈ s.todo, u ∈ g.vertices := by
  induction h with
  | refl => exact ⟨Draining.start g, fun u hu => absurd hu List.not_mem_nil⟩
  | tail _ hstep ih => exact hstep.draining ih

/-- A count is positive when an edge of its vertex is settled. -/
theorem Occurs.count_pos {s : Emission α} {rest : List α} (h : Occurs g s)
    (htodo : s.todo = u :: rest) : ∃ n, s.counts.lookup u = some (n + 1) := by
  obtain ⟨hdraining, hvertices⟩ := h.draining
  rw [htodo] at hdraining hvertices
  have hcount := hdraining.counts_eq u (hvertices u List.mem_cons_self)
  rw [List.count_cons_self, ← Nat.add_assoc] at hcount
  exact ⟨_, hcount⟩

/-- In the end, all that is emitted is what `topological` lists, and the queue is empty. -/
theorem occurs_topological (g : Digraph α) :
    ∃ counts, Occurs g ⟨g.topological, [], [], counts⟩ := by
  obtain ⟨queue, counts, hend⟩ : ∃ queue counts, Occurs g ⟨g.topological, [], queue, counts⟩ :=
    run_drain g.vertices.length
  have hdraining := hend.draining.1
  -- What is still queued would have all its successors emitted, so it would be emitted itself.
  have hqueue : queue = [] := by
    refine List.eq_nil_iff_forall_not_mem.2 fun v hv => ?_
    have hready := (hdraining.ready v).1 (List.mem_append_right _ hv)
    simp only [List.count_nil, Nat.add_zero, pending_eq_zero_iff] at hready
    have hemitted := ((topological_spec g).2.2 v).2 hready
    exact (List.nodup_append.1 hdraining.nodup).2.2 v hemitted v hv rfl
  exact ⟨counts, hqueue ▸ hend⟩

end Emission

end Steps

/-- Emitted are exactly the vertices that reach no cycle, each once and after its successors, and no
count is lowered below zero on the way. -/
theorem topological_exact (g : Digraph α) :
    (∀ v, v ∈ g.topological ↔ v ∈ g.vertices ∧ ∀ w, g.Reaches v w → ¬g.OnCycle w) ∧
    g.topological.Nodup ∧
    (∀ u v, (u, v) ∈ g.edges → u ∈ g.topological →
      g.topological.idxOf v < g.topological.idxOf u) ∧
    (∃ counts, Emission.Occurs g ⟨g.topological, [], [], counts⟩) ∧
    ∀ s : Emission α, Emission.Occurs g s → ∀ u rest, s.todo = u :: rest →
      ∃ n, s.counts.lookup u = some (n + 1) := by
  refine ⟨fun v => mem_topological_iff, (topological_spec g).2.1, fun u v => idxOf_lt_of_edge,
    Emission.occurs_topological g, fun s hs u rest => hs.count_pos⟩

/-- Two vertices on a cycle and one that reaches it are left out. -/
example : (ofLists ["x"] [("a", "b"), ("b", "a"), ("c", "a"), ("d", "e"), ("d", "e")]).topological =
    ["x", "e", "d"] := by decide

end StructuralTyping.Digraph
