import StructuralTyping.Proofs.AcyclicPart

/-!
# The graph of components

Collapsing every component of a graph to its position gives a graph without cycles: an edge between
components leads to a component that is listed before. So no component is left out when the
components are listed in dependency order. Main statement: `condenses_condensation`.
-/
namespace StructuralTyping.Digraph
variable {α : Type} [DecidableEq α] {g : Digraph α} {u v : α} {c d : List α} {i j : Nat}

section Positions

/-- An edge leads from a member of the component at one position to a member of that at another. -/
def Crosses (g : Digraph α) (components : List (List α)) (i j : Nat) : Prop :=
  ∃ c d, components[i]? = some c ∧ components[j]? = some d ∧ ∃ u ∈ c, ∃ v ∈ d, (u, v) ∈ g.edges

theorem mem_edges_condensation_iff : (i, j) ∈ g.condensation.graph.edges ↔
    i ≠ j ∧ g.Crosses g.components i j := by
  rw [mem_edges_condensation]
  refine and_congr_right fun _ => ?_
  constructor
  · rintro ⟨u, v, huv, rfl, rfl⟩
    obtain ⟨c, hc, hu⟩ := getElem?_componentIndex (g.closed _ huv).1
    obtain ⟨d, hd, hv⟩ := getElem?_componentIndex (g.closed _ huv).2
    exact ⟨c, d, hc, hd, u, hu, v, hv, huv⟩
  · rintro ⟨c, d, hc, hd, u, hu, v, hv, huv⟩
    exact ⟨u, v, huv, componentIndex_eq hc hu, componentIndex_eq hd hv⟩

theorem nodup_components (g : Digraph α) : g.components.Nodup := by
  refine List.pairwise_iff_getElem.2 fun i j hi hj hlt heq => ?_
  obtain ⟨v, hv⟩ := List.exists_mem_of_ne_nil _ fun hnil =>
    nil_notMem_components g (hnil ▸ List.getElem_mem hi)
  have hvj : v ∈ g.components[j] := heq ▸ hv
  have hij := components_disjoint (List.getElem?_eq_getElem hi) (List.getElem?_eq_getElem hj) hv hvj
  exact hlt.ne hij

end Positions

section Graph

theorem eraseDups_eq_self {l : List α} (h : l.Nodup) : l.eraseDups = l := by
  induction l with
  | nil => rfl
  | cons a l ih =>
    obtain ⟨ha, hl⟩ := List.nodup_cons.1 h
    have hfilter : (l.filter fun b => !b == a) = l := by
      refine List.filter_eq_self.2 fun b hb => ?_
      simpa using fun hba : b = a => ha (hba ▸ hb)
    rw [List.eraseDups_cons, hfilter, ih hl]

/-- Edges between listed vertices bring no further ones. -/
theorem vertices_ofLists {vertices : List α} {edges : List (α × α)} (hnodup : vertices.Nodup)
    (h : ∀ e ∈ edges, e.1 ∈ vertices ∧ e.2 ∈ vertices) :
    (ofLists vertices edges).vertices = vertices := by
  have hends : (edges.flatMap fun e => [e.1, e.2]).removeAll vertices = [] := by
    simp only [List.removeAll, List.filter_eq_nil_iff, List.mem_flatMap]
    rintro v ⟨e, he, hv⟩
    obtain ⟨hfst, hsnd⟩ := h e he
    rcases List.mem_pair.1 hv with rfl | rfl <;> simpa
  change (vertices ++ edges.flatMap fun e => [e.1, e.2]).eraseDups = vertices
  rw [List.eraseDups_append, hends, eraseDups_eq_self hnodup]
  exact List.append_nil vertices

theorem vertices_condensation (g : Digraph α) :
    g.condensation.graph.vertices = List.range g.components.length := by
  refine vertices_ofLists List.nodup_range fun e he => ?_
  have hclosed := g.condensation.graph.closed e he
  simpa [mem_vertices_condensation] using hclosed

/-- Paths in the graph of components lead to earlier positions. -/
theorem le_of_reaches_condensation (h : g.condensation.graph.Reaches i j) : j ≤ i := by
  induction h with
  | refl => exact Nat.le_refl _
  | step he _ ih => exact ih.trans (lt_of_mem_edges_condensation he).le

theorem not_onCycle_condensation (i : Nat) : ¬g.condensation.graph.OnCycle i := by
  rintro ⟨j, he, hback⟩
  have hlt := lt_of_mem_edges_condensation he
  exact hlt.not_ge (le_of_reaches_condensation hback)

theorem topological_condensation_perm (g : Digraph α) :
    g.condensation.graph.topological.Perm (List.range g.components.length) := by
  refine (List.perm_ext_iff_of_nodup (topological_spec _).2.1 List.nodup_range).2 fun i => ?_
  rw [mem_topological_condensation, List.mem_range]

end Graph

section Listing

theorem filterMap_range_getElem? {β : Type} (l : List β) :
    (List.range l.length).filterMap (l[·]?) = l := by
  induction l using List.reverseRecOn with
  | nil => rfl
  | append_singleton l b ih =>
    rw [List.length_append, List.length_singleton, List.range_succ, List.filterMap_append]
    have hold : (List.range l.length).filterMap ((l ++ [b])[·]?) = l := by
      refine (List.filterMap_congr fun i hi => ?_).trans ih
      exact List.getElem?_append_left (List.mem_range.1 hi)
    rw [hold]
    simp

theorem leavesFirst_condensation_perm (g : Digraph α) :
    g.condensation.leavesFirst.Perm g.components := by
  have hperm := (topological_condensation_perm g).filterMap (g.components[·]?)
  rwa [filterMap_range_getElem?] at hperm

/-- A component stands where its position does. -/
theorem idxOf_filterMap {order : List Nat} {f : Nat → Option (List α)}
    (hdefined : ∀ i ∈ order, (f i).isSome) (hinj : ∀ i j c, f i = some c → f j = some c → i = j)
    (hi : f i = some c) : (order.filterMap f).idxOf c = order.idxOf i := by
  induction order with
  | nil => rfl
  | cons j order ih =>
    obtain ⟨hj, horder⟩ := List.forall_mem_cons.1 hdefined
    obtain ⟨d, hd⟩ := Option.isSome_iff_exists.1 hj
    rw [List.filterMap_cons, hd, List.idxOf_cons, List.idxOf_cons, ih horder]
    by_cases hji : j = i
    · obtain rfl : d = c := Option.some.inj (hd.symm.trans (hji ▸ hi))
      rw [hji, beq_self_eq_true, beq_self_eq_true, cond_true]
    · have hdc : d ≠ c := fun h => hji (hinj j i c (h ▸ hd) hi)
      rw [beq_false_of_ne hji, beq_false_of_ne hdc, cond_false]

theorem idxOf_leavesFirst (hc : g.components[i]? = some c) :
    g.condensation.leavesFirst.idxOf c = g.condensation.graph.topological.idxOf i := by
  refine idxOf_filterMap (fun i hi => ?_) (fun i j c hi hj => ?_) hc
  · have hlt := mem_topological_condensation.1 hi
    exact Option.isSome_iff_exists.2 ⟨_, List.getElem?_eq_getElem hlt⟩
  · obtain ⟨v, hv⟩ := List.exists_mem_of_ne_nil c fun hnil =>
      nil_notMem_components g (hnil ▸ List.mem_of_getElem? hi)
    exact components_disjoint hi hj hv hv

end Listing

/-- The components of a graph, the graph that they are the vertices of by their positions, and
their list in dependency order. -/
structure Condensation.Condenses (k : Condensation α) (g : Digraph α) : Prop where
  components : k.components = g.components
  vertices : k.graph.vertices = List.range k.components.length
  edges_nodup : k.graph.edges.Nodup
  mem_edges : ∀ i j, (i, j) ∈ k.graph.edges ↔ i ≠ j ∧ g.Crosses k.components i j
  acyclic : ∀ i, ¬k.graph.OnCycle i
  nodup : k.leavesFirst.Nodup
  perm : k.leavesFirst.Perm k.components
  ordered : ∀ i j c d, (i, j) ∈ k.graph.edges → k.components[i]? = some c →
    k.components[j]? = some d → k.leavesFirst.idxOf d < k.leavesFirst.idxOf c

/-- The components of a graph form a graph without cycles, and each of them is listed once, after
those that it has an edge to. -/
theorem condenses_condensation (g : Digraph α) : g.condensation.Condenses g where
  components := rfl
  vertices := vertices_condensation g
  edges_nodup := nodup_eraseDups _
  mem_edges i j := mem_edges_condensation_iff
  acyclic := not_onCycle_condensation
  nodup := (leavesFirst_condensation_perm g).nodup_iff.2 (nodup_components g)
  perm := leavesFirst_condensation_perm g
  ordered i j c d he hc hd := by
    have hi := mem_topological_condensation.2 (List.getElem?_eq_some_iff.1 hc).1
    rw [idxOf_leavesFirst hc, idxOf_leavesFirst hd]
    exact idxOf_lt_of_edge he hi

end StructuralTyping.Digraph
