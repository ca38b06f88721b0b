import Mathlib.Data.List.Count
import StructuralTyping.Digraph.Order
import StructuralTyping.Proofs.StrongComponents

/-!
# Dependency order

Vertices are emitted when all that they depend on has been emitted: the count of a vertex is always
the number of its edges to vertices that are still to come, so a vertex joins the queue exactly when
the last of them is emitted. What is emitted in the end is the largest set with this property. Edges
between components lead to components that were closed before, so every component is emitted.
-/
namespace StructuralTyping.Digraph
variable {α : Type} {g : Digraph α} {u v w : α}

/-- A list in which every vertex stands after all its successors. -/
inductive DependencyFirst (g : Digraph α) : List α → Prop
  | nil : DependencyFirst g []
  | snoc {order : List α} {v : α} (before : DependencyFirst g order)
      (successors : ∀ w, (v, w) ∈ g.edges → w ∈ order) : DependencyFirst g (order ++ [v])

variable [DecidableEq α] {emitted queue todo : List α} {counts : List (α × Nat)}

section Counting

/-- The number of edges from a vertex to vertices that are still to be emitted. -/
def pending (g : Digraph α) (emitted : List α) (v : α) : Nat :=
  (g.successors v).countP fun w => w ∉ emitted

theorem pending_eq_zero_iff :
    g.pending emitted v = 0 ↔ ∀ w, (v, w) ∈ g.edges → w ∈ emitted := by
  simp [pending, List.countP_eq_zero, mem_successors]

/-- An edge is counted alike at both ends. -/
theorem count_predecessors (g : Digraph α) (u v : α) :
    (g.predecessors v).count u = (g.successors u).count v := by
  simp only [predecessors, successors]
  induction g.edges with
  | nil => rfl
  | cons e edges ih =>
    obtain ⟨a, b⟩ := e
    by_cases ha : a = u <;> by_cases hb : b = v <;> simp [ha, hb, ih]

theorem pending_snoc (hv : v ∉ emitted) (u : α) :
    g.pending emitted u = g.pending (emitted ++ [v]) u + (g.predecessors v).count u := by
  rw [count_predecessors, pending, pending]
  induction g.successors u with
  | nil => rfl
  | cons w ws ih =>
    rw [List.countP_cons, List.countP_cons, List.count_cons, ih]
    by_cases hw : w = v
    · subst hw
      simp [hv]
      omega
    · by_cases hin : w ∈ emitted
      · simp [hw, hin]
      · simp [hw, hin]
        omega

theorem lookup_settle (counts : List (α × Nat)) (v u : α) :
    (settle v counts).lookup u = (counts.lookup u).map fun n => if u = v then n - 1 else n := by
  induction counts with
  | nil => rfl
  | cons c counts ih =>
    obtain ⟨x, n⟩ := c
    have hcons : settle v ((x, n) :: counts) =
        (x, if x = v then n - 1 else n) :: settle v counts := by
      by_cases hxv : x = v <;> simp [settle, hxv]
    rw [hcons, List.lookup_cons, List.lookup_cons]
    by_cases hux : u = x
    · simp [hux]
    · have hne : (u == x) = false := by simpa using hux
      simp [hne, ih]

theorem lookup_map_mk {vs : List α} (hv : v ∈ vs) (f : α → Nat) :
    (vs.map fun u => (u, f u)).lookup v = some (f v) := by
  induction vs with
  | nil => simp at hv
  | cons u vs ih =>
    by_cases hvu : v = u
    · simp [hvu]
    · have hne : (v == u) = false := by simpa using hvu
      rw [List.map_cons, List.lookup_cons, hne]
      exact ih ((List.mem_cons.1 hv).resolve_left hvu)

end Counting

section Draining

/-- What holds while the edges from the vertices in `todo` to the last emitted vertex are still to
be settled. -/
structure Draining (g : Digraph α) (emitted todo queue : List α) (counts : List (α × Nat)) :
    Prop where
  counts_eq : ∀ u ∈ g.vertices, counts.lookup u = some (g.pending emitted u + todo.count u)
  nodup : (emitted ++ queue).Nodup
  ready : ∀ u, u ∈ emitted ++ queue ↔ u ∈ g.vertices ∧ g.pending emitted u + todo.count u = 0

/-- Settle one edge from `u`. -/
def release (state : List α × List (α × Nat)) (u : α) : List α × List (α × Nat) :=
  (if (settle u state.2).lookup u = some 0 then state.1 ++ [u] else state.1, settle u state.2)

theorem drain_cons (g : Digraph α) (fuel : Nat) (v : α) (queue : List α)
    (counts : List (α × Nat)) :
    g.drain (fuel + 1) (v :: queue) counts =
      v :: g.drain fuel ((g.predecessors v).foldl release (queue, counts)).1
        ((g.predecessors v).foldl release (queue, counts)).2 := rfl

theorem Draining.start (g : Digraph α) :
    Draining g [] [] (g.vertices.filter (g.outDegree · = 0))
      (g.vertices.map fun v => (v, g.outDegree v)) where
  counts_eq u hu := by
    have hpending : g.pending [] u = g.outDegree u := by simp [pending, outDegree]
    rw [hpending, List.count_nil, Nat.add_zero, lookup_map_mk hu]
  nodup := by simpa using g.distinct.filter _
  ready u := by simp [pending, outDegree]

theorem Draining.release (h : Draining g emitted (u :: todo) queue counts) (hu : u ∈ g.vertices) :
    Draining g emitted todo (release (queue, counts) u).1 (release (queue, counts) u).2 := by
  have hcounts : ∀ x ∈ g.vertices,
      (settle u counts).lookup x = some (g.pending emitted x + todo.count x) := by
    intro x hx
    rw [lookup_settle, h.counts_eq x hx, Option.map_some, List.count_cons]
    by_cases hxu : x = u
    · simp [hxu]
    · simp [hxu, Ne.symm hxu]
  have hcount (x : α) (hx : x ≠ u) : (u :: todo).count x = todo.count x := by
    rw [List.count_cons]
    simp [Ne.symm hx]
  have hnew : u ∉ emitted ++ queue := by
    rw [h.ready]
    simp
  unfold Digraph.release
  refine ⟨hcounts, ?_, fun x => ?_⟩
  · split_ifs
    · rw [← List.append_assoc]
      exact List.nodup_append.2 ⟨h.nodup, by simp, by simp; grind⟩
    · exact h.nodup
  · by_cases hx : x = u
    · subst hx
      simp only [hcounts x hu, Option.some.injEq]
      split_ifs with hzero
      · simp [hu, hzero]
      · exact ⟨fun hin => absurd hin hnew, fun hx => absurd hx.2 hzero⟩
    · have hold := h.ready x
      rw [hcount x hx] at hold
      dsimp only
      split_ifs
      · rw [← List.append_assoc, List.mem_append, hold]
        simp [hx]
      · exact hold

theorem Draining.foldl_release (h : Draining g emitted todo queue counts)
    (htodo : ∀ u ∈ todo, u ∈ g.vertices) :
    Draining g emitted [] (todo.foldl Digraph.release (queue, counts)).1
      (todo.foldl Digraph.release (queue, counts)).2 := by
  induction todo generalizing queue counts with
  | nil => exact h
  | cons u todo ih =>
    have hrest : ∀ x ∈ todo, x ∈ g.vertices := fun x hx => htodo x (List.mem_cons_of_mem u hx)
    exact ih (h.release (htodo u List.mem_cons_self)) hrest

/-- Emit the first vertex of the queue. -/
theorem Draining.emit (h : Draining g emitted [] (v :: queue) counts) :
    Draining g (emitted ++ [v]) (g.predecessors v) queue counts := by
  have hv : v ∉ emitted := by
    intro hin
    exact (List.nodup_append.1 h.nodup).2.2 v hin v List.mem_cons_self rfl
  have hcount (u : α) : g.pending (emitted ++ [v]) u + (g.predecessors v).count u =
      g.pending emitted u + ([] : List α).count u := (pending_snoc hv u).symm
  have happend : emitted ++ [v] ++ queue = emitted ++ v :: queue := by simp
  refine ⟨fun u hu => ?_, happend ▸ h.nodup, fun u => ?_⟩
  · rw [hcount, h.counts_eq u hu]
  · rw [hcount, happend, h.ready u]

theorem Draining.successors_emitted (h : Draining g emitted [] (v :: queue) counts)
    (w : α) (hw : (v, w) ∈ g.edges) : w ∈ emitted := by
  have hready := ((h.ready v).1 (by simp)).2
  exact pending_eq_zero_iff.1 (by simpa using hready) w hw

theorem Draining.length_le (h : Draining g emitted todo queue counts) :
    emitted.length + queue.length ≤ g.vertices.length := by
  have hsub : emitted ++ queue ⊆ g.vertices := fun u hu => ((h.ready u).1 hu).1
  simpa using (List.subperm_of_subset h.nodup hsub).length_le

/-- With fuel for all vertices that are not emitted, draining goes on until the queue is empty. -/
theorem Draining.drain {fuel : Nat} (h : Draining g emitted [] queue counts)
    (horder : DependencyFirst g emitted) (hfuel : g.vertices.length ≤ fuel + emitted.length) :
    DependencyFirst g (emitted ++ g.drain fuel queue counts) ∧
      ∃ counts', Draining g (emitted ++ g.drain fuel queue counts) [] [] counts' := by
  induction fuel generalizing emitted queue counts with
  | zero =>
    have hqueue : queue = [] := List.eq_nil_of_length_eq_zero (by have := h.length_le; omega)
    subst hqueue
    simp only [Digraph.drain, List.append_nil]
    exact ⟨horder, counts, h⟩
  | succ fuel ih =>
    cases queue with
    | nil =>
      simp only [Digraph.drain, List.append_nil]
      exact ⟨horder, counts, h⟩
    | cons v queue =>
      have hpred : ∀ u ∈ g.predecessors v, u ∈ g.vertices :=
        fun u hu => (g.closed _ (mem_predecessors.1 hu)).1
      have hnext := h.emit.foldl_release hpred
      have hlength : g.vertices.length ≤ fuel + (emitted ++ [v]).length := by
        simp only [List.length_append, List.length_singleton]
        omega
      have hrest := ih hnext (horder.snoc h.successors_emitted) hlength
      rw [List.append_assoc] at hrest
      rw [drain_cons]
      exact hrest

/-- What is emitted stands in dependency order, and is the vertices all successors of which are
emitted. -/
theorem topological_spec (g : Digraph α) :
    g.DependencyFirst g.topological ∧ g.topological.Nodup ∧
      ∀ v, v ∈ g.topological ↔ v ∈ g.vertices ∧ ∀ w, (v, w) ∈ g.edges → w ∈ g.topological := by
  have hfuel : g.vertices.length ≤ g.vertices.length + ([] : List α).length := le_rfl
  obtain ⟨horder, counts, h⟩ := (Draining.start g).drain .nil hfuel
  rw [List.nil_append, ← topological] at horder h
  refine ⟨horder, by simpa using h.nodup, fun v => ?_⟩
  have hready := h.ready v
  simp only [List.append_nil, List.count_nil, Nat.add_zero, pending_eq_zero_iff] at hready
  exact hready

end Draining

section Condensation

theorem mem_vertices_ofLists {vertices : List α} {edges : List (α × α)} :
    v ∈ (ofLists vertices edges).vertices ↔ v ∈ vertices ∨ ∃ e ∈ edges, v = e.1 ∨ v = e.2 := by
  simp [ofLists, List.mem_eraseDups]

/-- The position of the component of a vertex. -/
def componentIndex (g : Digraph α) (v : α) : Nat := g.components.findIdx (v ∈ ·)

theorem getElem?_componentIndex (hv : v ∈ g.vertices) :
    ∃ c, g.components[g.componentIndex v]? = some c ∧ v ∈ c := by
  obtain ⟨c, hc, hvc⟩ := exists_component hv
  have hlt : g.componentIndex v < g.components.length :=
    List.findIdx_lt_length_of_exists ⟨c, hc, by simpa using hvc⟩
  have hmem := List.findIdx_getElem (w := hlt)
  exact ⟨_, List.getElem?_eq_getElem hlt, of_decide_eq_true hmem⟩

theorem componentIndex_eq {i : Nat} {c : List α} (hc : g.components[i]? = some c) (hv : v ∈ c) :
    g.componentIndex v = i := by
  obtain ⟨d, hd, hvd⟩ :=
    getElem?_componentIndex (mem_vertices_of_component (List.mem_of_getElem? hc) hv)
  exact components_disjoint hd hc hvd hv

theorem mem_edges_condensation {i j : Nat} : (i, j) ∈ g.condensation.graph.edges ↔
    i ≠ j ∧ ∃ u v, (u, v) ∈ g.edges ∧ g.componentIndex u = i ∧ g.componentIndex v = j := by
  simp only [condensation, ofLists, List.mem_eraseDups, List.mem_filter, List.mem_flatMap,
    List.mem_map, mem_successors, Prod.mk.injEq, decide_eq_true_eq, componentIndex]
  constructor
  · rintro ⟨⟨u, -, v, huv, hi, hj⟩, hne⟩
    exact ⟨hne, u, v, huv, hi, hj⟩
  · rintro ⟨hne, u, v, huv, hi, hj⟩
    exact ⟨⟨u, (g.closed _ huv).1, v, huv, hi, hj⟩, hne⟩

/-- Edges between components lead to components that were closed before. -/
theorem lt_of_mem_edges_condensation {i j : Nat} (h : (i, j) ∈ g.condensation.graph.edges) :
    j < i := by
  obtain ⟨hne, u, v, huv, rfl, rfl⟩ := mem_edges_condensation.1 h
  obtain ⟨c, hc, hu⟩ := getElem?_componentIndex (g.closed _ huv).1
  obtain ⟨d, hd, hv⟩ := getElem?_componentIndex (g.closed _ huv).2
  exact lt_of_reaches hc hd hne hu hv (.single huv)

theorem mem_vertices_condensation {i : Nat} :
    i ∈ g.condensation.graph.vertices ↔ i < g.components.length := by
  have hindex (v : α) (hv : v ∈ g.vertices) : g.componentIndex v < g.components.length := by
    obtain ⟨c, hc, -⟩ := getElem?_componentIndex hv
    exact (List.getElem?_eq_some_iff.1 hc).1
  have hvertices : i ∈ g.condensation.graph.vertices ↔ i ∈ List.range g.components.length ∨
      ∃ e ∈ g.condensation.graph.edges, i = e.1 ∨ i = e.2 := mem_vertices_ofLists
  rw [hvertices, List.mem_range]
  refine or_iff_left_of_imp ?_
  rintro ⟨⟨a, b⟩, he, hi⟩
  obtain ⟨-, u, v, huv, rfl, rfl⟩ := mem_edges_condensation.1 he
  rcases hi with rfl | rfl
  · exact hindex u (g.closed _ huv).1
  · exact hindex v (g.closed _ huv).2

/-- Every component is emitted. -/
theorem mem_topological_condensation {i : Nat} :
    i ∈ g.condensation.graph.topological ↔ i < g.components.length := by
  obtain ⟨-, -, hiff⟩ := topological_spec g.condensation.graph
  constructor
  · exact fun hi => mem_vertices_condensation.1 ((hiff i).1 hi).1
  · induction i using Nat.strong_induction_on with
    | _ i ih =>
      intro hi
      refine (hiff i).2 ⟨mem_vertices_condensation.2 hi, fun j hj => ?_⟩
      have hlt := lt_of_mem_edges_condensation hj
      exact ih j hlt (hlt.trans hi)

end Condensation

end StructuralTyping.Digraph
