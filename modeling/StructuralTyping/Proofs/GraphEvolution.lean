import StructuralTyping.Proofs.SettledGraph

/-!
# Graphs only gain

Whatever is done to a graph, in the course of building it or of solving constraints, comes down to
four operations. None of them takes anything back: nodes stay, with what they say, classes and edges
that are there remain. Only open patterns and vectors gain edges of their own.
-/
namespace StructuralTyping.PatternGraph
variable {repo : Repository} {g h g' : PatternGraph} {n : Nat}

/-- One operation on a graph. -/
inductive Operation (repo : Repository) (g : PatternGraph) : PatternGraph → Prop
  | node {kind : PatternKind} {edges : NameMap Nat} (hkind : kind.bound? = none)
      (hedges : ∀ l d, edges.get? l = some d → d < g.size)
      (hnormal : ∀ l, edges.contains l → kind.memberLabel repo l = l) :
      Operation repo g (g.pushNode kind edges).2
  | code {name : String} {id : Nat} {g' : PatternGraph} (hbinds : Build.Binds repo name g id g') :
      Operation repo g g'
  | merge {rule : String} {ids : List Nat} {changed : Bool} {g' : PatternGraph}
      (hids : ∀ id ∈ ids, id < g.size) (hmerges : Build.Merges repo rule ids g changed g') :
      Operation repo g g'
  | edge {rule label : String} {source target : Nat} {changed : Bool} {g' : PatternGraph}
      (hsource : source < g.size) (htarget : target < g.size)
      (hadds : Build.AddsEdge repo rule source label target g changed g') : Operation repo g g'

/-- Any number of operations. -/
abbrev Evolves (repo : Repository) : PatternGraph → PatternGraph → Prop :=
  Relation.ReflTransGen (Operation repo)

theorem Operation.formed (hop : Operation repo g g') (hg : g.Formed) : g'.Formed := by
  cases hop with
  | node hkind hedges hnormal => exact hg.pushNode hedges hkind
  | code hbinds => exact hbinds.formed
  | merge hids hmerges => exact hmerges.formed hg hids
  | edge hsource htarget hadds =>
    cases hadds with
    | merge hpresent hmerges =>
      have hlt := hg.targets_lt _ _ _ hpresent
      exact hmerges.formed hg (by simp [hlt, htarget])
    | gain habsent hopen => exact hg.withEdge (hg.find_lt hsource) htarget

theorem Operation.settled (hop : Operation repo g g') (hrepo : repo.AliasesKnown)
    (hg : g.Settled repo []) : g'.Settled repo [] := by
  cases hop with
  | node hkind hedges hnormal => exact hg.pushNode hkind hedges hnormal
  | code hbinds => exact hg.binds hrepo hbinds
  | merge hids hmerges => exact hg.merges hids hmerges
  | edge hsource htarget hadds => exact hg.addsEdge hsource htarget hadds

theorem Evolves.formed (hrun : Evolves repo g g') (hg : g.Formed) : g'.Formed := by
  induction hrun with
  | refl => exact hg
  | tail _ hop ih => exact hop.formed ih

theorem Evolves.settled (hrun : Evolves repo g g') (hrepo : repo.AliasesKnown)
    (hg : g.Settled repo []) : g'.Settled repo [] := by
  induction hrun with
  | refl => exact hg
  | tail _ hop ih => exact hop.settled hrepo ih

/-- Nothing that the first graph says is taken back by the second. -/
structure Extends (g g' : PatternGraph) : Prop where
  size_le : g.size ≤ g'.size
  node : ∀ n < g.size, g'.node n = g.node n
  edges : ∀ n l d, (g.ownEdges n).get? l = some d → (g'.ownEdges n).get? l = some d
  closed : ∀ n < g.size, ¬((g.node n).kind.isOpen ∨ (g.node n).kind = .vector) →
    g'.ownEdges n = g.ownEdges n
  find : ∀ i j, g.find i = g.find j → g'.find i = g'.find j
  bound : ∀ c id, g.bound.get? c = some id → g'.bound.get? c = some id

theorem Extends.refl (g : PatternGraph) : g.Extends g :=
  ⟨Nat.le_refl _, fun _ _ => rfl, fun _ _ _ h => h, fun _ _ _ => rfl, fun _ _ h => h,
    fun _ _ h => h⟩

theorem Extends.trans (hg : g.Extends h) (hh : h.Extends g') : g.Extends g' where
  size_le := hg.size_le.trans hh.size_le
  node n hn := by rw [hh.node n (hn.trans_le hg.size_le), hg.node n hn]
  edges n l d hd := hh.edges n l d (hg.edges n l d hd)
  closed n hn hkind := by
    rw [hh.closed n (hn.trans_le hg.size_le) (by rwa [hg.node n hn]), hg.closed n hn hkind]
  find i j hij := hh.find i j (hg.find i j hij)
  bound c id hid := hh.bound c id (hg.bound c id hid)

/-- What a node itself says is said by it in each graph that takes nothing back. -/
theorem Extends.ownShape_below (hext : g.Extends g') (hn : n < g.size)
    (hnormal : (g.ownShape n).Normal repo) : (g.ownShape n).Below repo (g'.ownShape n) := by
  have hkind : (g'.ownShape n).kind = (g.ownShape n).kind := by
    rw [ownShape, hext.node n hn]
    rfl
  by_cases hopen : (g.node n).kind.isOpen ∨ (g.node n).kind = .vector
  · refine Shape.below_of_subset hnormal hopen hkind fun l hl => ?_
    obtain ⟨d, hd⟩ := NameMap.contains_iff.1 (contains_ownShape.1 hl)
    exact contains_ownShape.2 (NameMap.contains_of_get? (hext.edges n l d hd))
  · have heq : g'.ownShape n = g.ownShape n := by
      rw [ownShape, ownShape, hext.node n hn, hext.closed n hn hopen]
    rw [heq]
    exact .refl hnormal

/-- What a node itself says is said by its class in each settled graph that takes nothing back. -/
theorem Extends.below_shape {pending : List (List Nat)} (hext : g.Extends g')
    (hg' : g'.Settled repo pending) (hn : n < g.size) (hnormal : (g.ownShape n).Normal repo) :
    (g.ownShape n).Below repo (g'.shape n) := (hext.ownShape_below hn hnormal).trans (hg'.above n)

theorem Extends.kind_of_recorded {c : String} {id : Nat} (hext : g.Extends h) (hh : h.Formed)
    (hid : g.bound.get? c = some id) : h.kind id = .bound c :=
  hh.kind_of_bound (hh.codes c id (hext.bound c id hid))

/-- An operation that leaves the edges of all nodes as they are. -/
theorem Extends.of_ownEdges_eq (hg : g.Formed) (hsize : g.size ≤ g'.size)
    (hnode : ∀ n < g.size, g'.node n = g.node n)
    (hedges : ∀ n < g.size, g'.ownEdges n = g.ownEdges n)
    (hfind : ∀ i j, g.find i = g.find j → g'.find i = g'.find j)
    (hbound : ∀ c id, g.bound.get? c = some id → g'.bound.get? c = some id) : g.Extends g' where
  size_le := hsize
  node := hnode
  edges n l d hd := by rwa [hedges n (lt_size_of_get? hg hd)]
  closed n hn _ := hedges n hn
  find := hfind
  bound := hbound

theorem extends_of_mergeRun {rule : String} {pending pending' : List (List Nat)}
    (hready : Ready (g, pending)) (hrun : MergeRun repo rule (g, pending) (g', pending')) :
    g.Extends g' := by
  apply Extends.of_ownEdges_eq hready.formed (MergeRun.size_le hrun)
  · exact fun n hn => MergeRun.node_eq hrun hn
  · exact fun n hn => MergeRun.ownEdges_eq hrun hready hn
  · exact fun i j hij => MergeRun.find_eq hrun hready hij
  · intro c id hid
    have hbound : g'.bound = g.bound := MergeRun.bound_eq hrun
    rwa [hbound]

section Operations
variable (hg : g.Formed)
include hg

theorem Formed.extends_pushNode (kind : PatternKind) (edges : NameMap Nat) :
    g.Extends (g.pushNode kind edges).2 := by
  apply Extends.of_ownEdges_eq hg
  · rw [size_pushNode]
    omega
  · intro n hn
    rw [node_pushNode, if_neg hn.ne]
  · intro n hn
    rw [ownEdges_pushNode hg.edges_size, if_neg hn.ne]
  · intro i j hij
    rw [hg.find_pushNode, hg.find_pushNode, hij]
  · exact fun c id hid => hid

theorem Formed.extends_of_binds {name : String} {id : Nat} (hb : Build.Binds repo name g id g') :
    g.Extends g' := by
  have hfind := hb.grows.find hg hb.formed
  apply Extends.of_ownEdges_eq hg hb.grows.size_le hb.grows.node hb.grows.ownEdges
  · intro i j hij
    rw [hfind, hfind, hij]
  · exact hb.grows.bound

theorem Formed.extends_of_merges {rule : String} {ids : List Nat} {changed : Bool}
    (hids : ∀ id ∈ ids, id < g.size) (hm : Build.Merges repo rule ids g changed g') :
    g.Extends g' := extends_of_mergeRun (ready_singleton hg hids) (hm.run [])

theorem Formed.extends_withEdge {source target : Nat} {label : String} (hsource : source < g.size)
    (hopen : (g.kind source).isOpen ∨ g.kind source = .vector)
    (habsent : (g.edgesOf source).get? label = none) :
    g.Extends (g.withEdge (g.find source) label target) := by
  have hlt : g.find source < g.edges.size := hg.edges_size ▸ hg.find_lt hsource
  constructor
  case size_le => exact Nat.le_refl _
  case node => exact fun n _ => rfl
  case edges =>
    intro n l d hd
    rw [get?_withEdge hlt]
    split_ifs with hn
    · obtain ⟨rfl, rfl⟩ := hn
      cases habsent.symm.trans hd
    · exact hd
  case closed =>
    intro n _ hkind
    rw [ownEdges_withEdge hlt, if_neg]
    rintro rfl
    exact hkind hopen
  case find => exact fun i j hij => hij
  case bound => exact fun c id hid => hid

theorem Operation.extends (hop : Operation repo g g') : g.Extends g' := by
  cases hop with
  | node => exact hg.extends_pushNode _ _
  | code hbinds => exact hg.extends_of_binds hbinds
  | merge hids hmerges => exact hg.extends_of_merges hids hmerges
  | edge hsource htarget hadds =>
    cases hadds with
    | merge hpresent hmerges =>
      have hlt := hg.targets_lt _ _ _ hpresent
      exact hg.extends_of_merges (by simp [hlt, htarget]) hmerges
    | gain habsent hopen => exact hg.extends_withEdge hsource hopen habsent

theorem Evolves.extends (hrun : Evolves repo g g') : g.Extends g' := by
  induction hrun with
  | refl => exact .refl g
  | tail hrun hop ih => exact ih.trans (hop.extends (Evolves.formed hrun hg))

end Operations

end StructuralTyping.PatternGraph
