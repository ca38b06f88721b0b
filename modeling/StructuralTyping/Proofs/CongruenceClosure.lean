import StructuralTyping.Proofs.BoundClasses

/-!
# Merging is congruence closure

Classes have to be merged if the same label leads from a merged class to both of them. The classes
that merging some nodes leaves are the least that satisfy this: no two nodes become one class
without need, and no edge is lost. Which labels are the same depends on the classes, since a vector
keeps all edges to its members under one label; a class is a vector exactly if one of its nodes is.
-/
namespace StructuralTyping.PatternGraph
variable {repo : Repository} {g₀ g g' : PatternGraph} {rule : String} {ids roots : List Nat}
  {pending pending' rest : List (List Nat)} {joined : Shape} {kinds : Nat → PatternKind}
  {r : Nat → Nat → Prop} {i j n : Nat}

/-- An equivalence that contains the classes of the graph and joins the given nodes, in which edges
lead from one class to one class if the kind of the class keeps them under one label. The kinds are
those of the classes of the equivalence, which are vectors if one of their nodes is. -/
structure IsCongruence (repo : Repository) (g : PatternGraph) (kinds : Nat → PatternKind)
    (ids : List Nat) (r : Nat → Nat → Prop) : Prop where
  equivalence : Equivalence r
  classes : ∀ i j, g.find i = g.find j → r i j
  given : ∀ i ∈ ids, ∀ j ∈ ids, r i j
  vectors : ∀ v n, r v n → (g.node v).kind.isVector repo → (kinds n).isVector repo
  closed : ∀ n m l k d e, r n m → (g.ownEdges n).get? l = some d → (g.ownEdges m).get? k = some e →
    (kinds n).memberLabel repo l = (kinds n).memberLabel repo k → r d e

/-- All classes, edges and vectors of a graph that is being merged come from the graph at the start,
and nodes at the start share a class only if they are related. -/
structure Justified (repo : Repository) (g₀ : PatternGraph) (r : Nat → Nat → Prop)
    (g : PatternGraph) (pending : List (List Nat)) : Prop where
  size_le : g₀.size ≤ g.size
  covered : ∀ n < g.size, ∃ i < g₀.size, g.find i = g.find n
  classes : ∀ i < g₀.size, ∀ j < g₀.size, g.find i = g.find j → r i j
  pending : ∀ ids ∈ pending, ∀ a ∈ ids, a < g₀.size ∧ ∀ b ∈ ids, r a b
  edges : ∀ n l d, (g.ownEdges n).get? l = some d → ∃ m k, g.find m = g.find n ∧
    (g₀.ownEdges m).get? k = some d ∧ (g.kind n).memberLabel repo k = (g.kind n).memberLabel repo l
  vectors : ∀ n, (g.node n).kind.isVector repo →
    ∃ v < g₀.size, g.find v = g.find n ∧ (g₀.node v).kind.isVector repo

theorem Justified.start (hr : IsCongruence repo g kinds ids r)
    (hids : ∀ id ∈ ids, id < g.size) : Justified repo g r g [ids] where
  size_le := Nat.le_refl _
  covered n hn := ⟨n, hn, rfl⟩
  classes i _ j _ := hr.classes i j
  pending := by
    simp only [List.mem_singleton, forall_eq]
    exact fun a ha => ⟨hids a ha, hr.given a ha⟩
  edges n l d hd := ⟨n, l, rfl, hd, rfl⟩
  vectors n hn := by
    refine ⟨n, ?_, rfl, hn⟩
    by_contra hlt
    rw [PatternGraph.node, PatternForest.node_of_size_le (Nat.le_of_not_lt hlt)] at hn
    cases hn

section Steps
variable (hg : g.Formed) (hare : g.AreRoots roots)
  (hjoin : Shape.IsJoin repo (roots.map g.shape) joined)
include hg hare hjoin

omit hg in
theorem exists_vector_of_isJoin (hv : joined.kind.isVector repo) :
    ∃ root ∈ roots, (g.node root).kind.isVector repo := by
  rcases hjoin.kind with ⟨s, hs, hk⟩ | hk | hk
  · obtain ⟨root, hroot, rfl⟩ := List.mem_map.1 hs
    refine ⟨root, hroot, ?_⟩
    rw [hk] at hv
    rwa [← kind_of_root (hare root hroot).2]
  all_goals
    rw [hk] at hv
    cases hv

omit hare in
/-- Labels that a class keeps alike are kept alike by the class it becomes part of. -/
theorem memberLabel_eq_of_isJoin {k l : String} (hin : g.find n ∈ roots)
    (h : (g.kind n).memberLabel repo k = (g.kind n).memberLabel repo l) :
    joined.kind.memberLabel repo k = joined.kind.memberLabel repo l := by
  have hbelow := hjoin.below _ (List.mem_map_of_mem hin)
  rw [hg.shape_find] at hbelow
  have hkept (x : String) : joined.kind.memberLabel repo ((g.kind n).memberLabel repo x) =
      joined.kind.memberLabel repo x := PatternKind.memberLabel_memberLabel hbelow.isVector
  rw [← hkept k, h, hkept]

/-- The edges that arrive at a new root come from nodes at the start. -/
theorem Justified.exists_of_mem_arrivals (h : Justified repo g₀ r g pending) {d : Nat}
    {label : String} (hd : d ∈ g.arrivals repo joined.kind roots label) :
    ∃ m k, g.find m ∈ roots ∧ (g₀.ownEdges m).get? k = some d ∧
      joined.kind.memberLabel repo k = label := by
  obtain ⟨root, hroot, l, hl, rfl⟩ := mem_arrivals.1 hd
  have hfind := hare.find_eq hroot
  obtain ⟨m, k, hm, hk, hlabel⟩ := h.edges root l d hl
  refine ⟨m, k, by rwa [hm, hfind], hk, ?_⟩
  exact memberLabel_eq_of_isJoin hg hjoin (hfind.symm ▸ hroot) hlabel

end Steps

section Related
variable (h : Justified repo g₀ r g (ids :: rest)) (hroots : roots = ascending (ids.map g.find))
  (hequiv : Equivalence r)
include h hroots hequiv

/-- Nodes whose classes are put below one root are related. -/
theorem Justified.related (hi : i < g₀.size) (hj : j < g₀.size) (hi' : g.find i ∈ roots)
    (hj' : g.find j ∈ roots) : r i j := by
  have hsome {n : Nat} (hn : n < g₀.size) (hin : g.find n ∈ roots) : ∃ a ∈ ids, r n a := by
    rw [hroots, mem_ascending, List.mem_map] at hin
    obtain ⟨a, ha, hfind⟩ := hin
    exact ⟨a, ha, h.classes n hn a (h.pending ids List.mem_cons_self a ha).1 hfind.symm⟩
  obtain ⟨a, ha, hia⟩ := hsome hi hi'
  obtain ⟨b, hb, hjb⟩ := hsome hj hj'
  have hab := (h.pending ids List.mem_cons_self a ha).2 b hb
  exact hequiv.trans hia (hequiv.trans hab (hequiv.symm hjb))

end Related

section Run
variable {given : List Nat} (hg₀ : g₀.Formed) (hr : IsCongruence repo g₀ kinds given r)
include hg₀ hr

/-- Targets that meet are related, since the nodes they are targets of are. -/
theorem Justified.meet (h : Justified repo g₀ r g (ids :: rest)) (hg : g.Formed)
    (hare : g.AreRoots roots) (hjoin : Shape.IsJoin repo (roots.map g.shape) joined)
    (hroots : roots = ascending (ids.map g.find)) {met : List Nat}
    (hmet : met ∈ meetings (g.targets repo joined.kind roots)) {a b : Nat} (ha : a ∈ met)
    (hb : b ∈ met) : r a b := by
  obtain ⟨label, rfl⟩ := exists_label_of_mem_meetings hmet
  obtain ⟨m, k, hm, hk, rfl⟩ := h.exists_of_mem_arrivals hg hare hjoin ha
  obtain ⟨m', k', hm', hk', hlabel⟩ := h.exists_of_mem_arrivals hg hare hjoin hb
  have hlt := lt_size_of_get? hg₀ hk
  refine hr.closed m m' k k' a b ?_ hk hk' ?_
  · exact h.related hroots hr.equivalence hlt (lt_size_of_get? hg₀ hk') hm hm'
  · rcases PatternKind.memberLabel_eq_iff.1 hlabel with rfl | ⟨hv, hmember', hmember⟩
    · rfl
    · -- The new class is a vector, so one of the merged nodes was.
      obtain ⟨root, hroot, hv'⟩ := exists_vector_of_isJoin hare hjoin hv
      obtain ⟨v, hvlt, hfind, hvector⟩ := h.vectors root hv'
      rw [hare.find_eq hroot] at hfind
      have hrel := h.related hroots hr.equivalence hvlt hlt (hfind.symm ▸ hroot) hm
      have hkind := hr.vectors v m hrel hvector
      rw [PatternKind.memberLabel_of_isVector hkind hmember,
        PatternKind.memberLabel_of_isVector hkind hmember']

/-- Joining classes joins none that are not related, and loses no edge and no vector. -/
theorem Justified.joinRoots (h : Justified repo g₀ r g (ids :: rest)) (hg : g.Formed)
    (hids : ∀ id ∈ ids, id < g.size) (hroots : roots = ascending (ids.map g.find))
    (hseveral : 2 ≤ roots.length) (hjoin : Shape.IsJoin repo (roots.map g.shape) joined) :
    Justified repo g₀ r (g.joinRoots repo joined.kind rule roots)
      (meetings (g.targets repo joined.kind roots) ++ rest) := by
  have hare := hg.areRoots_of_eq hids hroots
  have hnode (n : Nat) : (g.joinRoots repo joined.kind rule roots).node n = _ := node_joinRoots n
  have hedges (n : Nat) : (g.joinRoots repo joined.kind rule roots).ownEdges n = _ :=
    ownEdges_joinRoots hg.edges_size n
  have hne (n : Nat) (hn : n < g₀.size) : n ≠ g.size := (hn.trans_le h.size_le).ne
  have hfind {i j : Nat} (hij : g.find i = g.find j) :
      (g.joinRoots repo joined.kind rule roots).find i =
        (g.joinRoots repo joined.kind rule roots).find j := hg.find_joinRoots_eq hare hij
  have htop {i : Nat} (hi : g.find i ∈ roots) :
      (g.joinRoots repo joined.kind rule roots).find i =
        (g.joinRoots repo joined.kind rule roots).find g.size := by
    rw [hg.find_joinRoots_of_mem hare hi, hg.find_joinRoots_size hare]
  constructor
  case size_le =>
    rw [size_joinRoots]
    exact Nat.le_succ_of_le h.size_le
  case covered =>
    intro n hn
    rw [size_joinRoots] at hn
    by_cases hsize : n = g.size
    · have hpos := Nat.lt_of_lt_of_le Nat.two_pos hseveral
      obtain ⟨root, hroot⟩ := List.exists_mem_of_length_pos hpos
      obtain ⟨i, hi, hi'⟩ := h.covered root (hare root hroot).1
      rw [hare.find_eq hroot] at hi'
      exact ⟨i, hi, hsize ▸ htop (hi' ▸ hroot)⟩
    · obtain ⟨i, hi, hi'⟩ := h.covered n (by omega)
      exact ⟨i, hi, hfind hi'⟩
  case classes =>
    intro i hi j hj hij
    rw [hg.find_joinRoots hare, hg.find_joinRoots hare] at hij
    split_ifs at hij with hi' hj' hj'
    · exact h.related hroots hr.equivalence hi hj hi' hj'
    · exact absurd hij.symm (hg.find_ne_size (hne j hj))
    · exact absurd hij (hg.find_ne_size (hne i hi))
    · exact h.classes i hi j hj hij
  case pending =>
    intro met hmet a ha
    rcases List.mem_append.1 hmet with hmet | hmet
    · refine ⟨?_, fun b hb => h.meet hg₀ hr hg hare hjoin hroots hmet ha hb⟩
      obtain ⟨label, rfl⟩ := exists_label_of_mem_meetings hmet
      obtain ⟨m, k, -, hk, -⟩ := h.exists_of_mem_arrivals hg hare hjoin ha
      exact hg₀.targets_lt m k a hk
    · exact h.pending met (List.mem_cons_of_mem _ hmet) a ha
  case edges =>
    intro n l d hd
    rw [hedges] at hd
    split_ifs at hd with hsize
    · obtain ⟨m, k, hm, hk, rfl⟩ :=
        h.exists_of_mem_arrivals hg hare hjoin (mem_arrivals_of_get?_targets hd)
      refine ⟨m, k, hsize ▸ htop hm, hk, ?_⟩
      rw [hsize, hg.kind_joinRoots_size hare, PatternKind.memberLabel_idem]
    · obtain ⟨m, k, hm, hk, hlabel⟩ := h.edges n l d hd
      refine ⟨m, k, hfind hm, hk, ?_⟩
      by_cases hin : g.find n ∈ roots
      · rw [hg.kind_joinRoots_of_mem hare hin]
        exact memberLabel_eq_of_isJoin hg hjoin hin hlabel
      · rwa [hg.kind_joinRoots_of_notMem hare (lt_size_of_get? hg hd) hin]
  case vectors =>
    intro n hn
    rw [hnode] at hn
    split_ifs at hn with hsize
    · obtain ⟨root, hroot, hv⟩ := exists_vector_of_isJoin hare hjoin hn
      obtain ⟨v, hv, hfind', hvector⟩ := h.vectors root hv
      rw [hare.find_eq hroot] at hfind'
      exact ⟨v, hv, hsize ▸ htop (hfind' ▸ hroot), hvector⟩
    · obtain ⟨v, hv, hfind', hvector⟩ := h.vectors n hn
      exact ⟨v, hv, hfind hfind', hvector⟩

theorem Justified.mergeStep (h : Justified repo g₀ r g pending) (hready : Ready (g, pending))
    (hstep : MergeStep repo rule (g, pending) (g', pending')) :
    Justified repo g₀ r g' pending' := by
  cases hstep with
  | same hsame =>
    exact ⟨h.size_le, h.covered, h.classes,
      fun ids hids => h.pending ids (List.mem_cons_of_mem _ hids), h.edges, h.vectors⟩
  | join hroots hseveral hjoin hconflict =>
    exact h.joinRoots hg₀ hr hready.formed hready.head_lt hroots hseveral hjoin

theorem Justified.mergeRun (h : Justified repo g₀ r g pending) (hready : Ready (g, pending))
    (hrun : MergeRun repo rule (g, pending) (g', pending')) : Justified repo g₀ r g' pending' := by
  generalize ht : (g', pending') = t at hrun
  induction hrun generalizing g' pending' with
  | refl =>
    rw [Prod.mk.injEq] at ht
    rwa [ht.1, ht.2]
  | tail hrun hstep ih =>
    subst ht
    exact (ih rfl).mergeStep hg₀ hr (MergeRun.ready hrun hready) hstep

end Run

/-- The classes of the second graph are the congruence closure of those of the first. -/
structure ClosesUnder (repo : Repository) (ids : List Nat) (g g' : PatternGraph) : Prop where
  congruence : IsCongruence repo g g'.kind ids fun i j => g'.find i = g'.find j
  /-- No congruence has smaller classes, whatever the kinds of its own classes are. -/
  least : ∀ r kinds, IsCongruence repo g kinds ids r →
    ∀ i < g.size, ∀ j < g.size, g'.find i = g'.find j → r i j
  /-- A class is a vector exactly if one of its nodes is. -/
  vectors : ∀ n < g.size, (g'.kind n).isVector repo ↔
    ∃ v < g.size, g'.find v = g'.find n ∧ (g.node v).kind.isVector repo
  /-- New nodes are in classes of old nodes. -/
  covered : ∀ n < g'.size, ∃ i < g.size, g'.find i = g'.find n
  /-- The nodes store the edges that they stored. -/
  ownEdges : ∀ n < g.size, g'.ownEdges n = g.ownEdges n
  /-- Every edge of a node, old or new, is an edge of its class. -/
  kept : ∀ n l d, (g'.ownEdges n).get? l = some d →
    g'.target? n ((g'.kind n).memberLabel repo l) = some (g'.find d)

section Closure
variable {changed : Bool} (h : g.Settled repo []) (hids : ∀ id ∈ ids, id < g.size)
  (hm : Build.Merges repo rule ids g changed g')
include h hids hm

theorem Settled.isVector_of_find_eq {v : Nat} (hfind : g'.find v = g'.find n)
    (hv : (g.node v).kind.isVector repo) : (g'.kind n).isVector repo := by
  have hlt : v < g.size := by
    by_contra hlt
    rw [node, PatternForest.node_of_size_le (Nat.le_of_not_lt hlt)] at hv
    cases hv
  have habove := (h.merges hids hm).above v
  rw [kind, ← hfind]
  apply habove.isVector
  change ((g'.node v).kind).isVector repo
  rwa [MergeRun.node_eq (hm.run []) hlt]

theorem Settled.isCongruence_find :
    IsCongruence repo g g'.kind ids fun i j => g'.find i = g'.find j := by
  have hready := ready_singleton h.formed hids
  have hsettled := h.merges hids hm
  have hlinked {i j : Nat} (hij : Linked g [ids] i j) : g'.find i = g'.find j :=
    linked_nil_iff.1 (hij.mergeRun hready (hm.run []))
  constructor
  case equivalence => exact ⟨fun _ => rfl, Eq.symm, Eq.trans⟩
  case classes => exact fun i j hij => hlinked (.of_find_eq hij)
  case given => exact fun i hi j hj => hlinked (.rel _ _ (.inr ⟨ids, by simp, hi, hj⟩))
  case vectors => exact fun v n hfind hv => h.isVector_of_find_eq hids hm hfind hv
  case closed =>
    intro n m l k d e hnm hd he hlabel
    have hown {i : Nat} {l : String} {d : Nat} (hd : (g.ownEdges i).get? l = some d) :
        (g'.ownEdges i).get? l = some d := by
      rwa [MergeRun.ownEdges_eq (hm.run []) hready (lt_size_of_get? h.formed hd)]
    have hd' := hsettled.target?_of_get? (hown hd)
    have he' := hsettled.target?_of_get? (hown he)
    rw [← target?_congr hnm, ← kind_congr hnm, ← hlabel, hd', Option.some.injEq] at he'
    exact he'

/-- At the end of merging, classes are justified by any congruence. -/
theorem Settled.justified (hr : IsCongruence repo g kinds ids r) : Justified repo g r g' [] :=
  (Justified.start hr hids).mergeRun h.formed hr (ready_singleton h.formed hids) (hm.run [])

theorem Settled.closesUnder : ClosesUnder repo ids g g' := by
  have hsettled := h.merges hids hm
  have hcongruence := h.isCongruence_find hids hm
  have hjustified := h.justified hids hm hcongruence
  constructor
  case congruence => exact hcongruence
  case least => exact fun r kinds hr => (h.justified hids hm hr).classes
  case vectors =>
    intro n _
    constructor
    · intro hv
      obtain ⟨v, hv, hfind, hvector⟩ := hjustified.vectors (g'.find n) hv
      exact ⟨v, hv, hfind.trans (hsettled.formed.find_find n), hvector⟩
    · rintro ⟨v, -, hfind, hvector⟩
      exact h.isVector_of_find_eq hids hm hfind hvector
  case covered => exact hjustified.covered
  case ownEdges =>
    exact fun n hn => MergeRun.ownEdges_eq (hm.run []) (ready_singleton h.formed hids) hn
  case kept => exact fun n l d hd => hsettled.target?_of_get? hd

end Closure

/-- Merging computes the congruence closure, and loses no edge. -/
theorem Built.unify_closesUnder {changed : Bool} (hrepo : repo.Reachable) (hg : Built repo g)
    (hids : ∀ id ∈ ids, id < g.size) (hok : Build.unify repo rule ids g = .ok changed g') :
    ClosesUnder repo ids g g' := by
  have hsettled := hg.settled hrepo.consistent
  exact hsettled.closesUnder hids ((Build.unify_outcome hsettled.formed hids).of_ok hok)

theorem Built.unify_closesUnder_streams : Repository.ofStream.Reachable ∧
    Built .ofStream streams ∧
    Build.unify .ofStream "merge" [0, 3] streams = .ok true mergedStreams ∧
    ClosesUnder .ofStream [0, 3] streams mergedStreams :=
  ⟨Repository.ofStream_reachable, streams_built, unify_streams,
    Built.unify_closesUnder Repository.ofStream_reachable streams_built (by decide) unify_streams⟩

end StructuralTyping.PatternGraph
