import StructuralTyping.Proofs.Lookup
import StructuralTyping.Proofs.PatternClasses
import StructuralTyping.Pattern.Graph

/-!
# Well-formed graphs

In a well-formed graph every edge leads to a node, and every code that some node is bound to is
recorded, at a node bound to it, which all other nodes bound to the code share their class with. The
operations that graphs are built with keep graphs well-formed. What they do to the classes and to
the edges is stated here once, in terms of look-ups.
-/
namespace StructuralTyping

section Ascending
variable {n m : Nat} {ids : List Nat}

theorem mem_insertAscending : m ∈ insertAscending n ids ↔ m = n ∨ m ∈ ids := by
  induction ids with
  | nil => simp [insertAscending]
  | cons k rest ih =>
    rw [insertAscending]
    split_ifs with hlt heq
    · simp
    · simp [heq]
    · rw [List.mem_cons, ih, List.mem_cons]
      tauto

theorem mem_ascending : m ∈ ascending ids ↔ m ∈ ids := by
  induction ids with
  | nil => rfl
  | cons n rest ih =>
    change m ∈ insertAscending n (ascending rest) ↔ _
    rw [mem_insertAscending, ih, List.mem_cons]

theorem pairwise_insertAscending (h : ids.Pairwise (· < ·)) :
    (insertAscending n ids).Pairwise (· < ·) := by
  induction ids with
  | nil => simp [insertAscending]
  | cons k rest ih =>
    have habove := (List.pairwise_cons.1 h).1
    rw [insertAscending]
    split_ifs with hlt heq
    · refine h.cons fun m hm => ?_
      rcases List.mem_cons.1 hm with rfl | hm
      · exact hlt
      · exact hlt.trans (habove m hm)
    · exact h
    · refine (ih h.of_cons).cons fun m hm => ?_
      rcases mem_insertAscending.1 hm with rfl | hm
      · omega
      · exact habove m hm

theorem pairwise_ascending (ids : List Nat) : (ascending ids).Pairwise (· < ·) := by
  induction ids with
  | nil => exact .nil
  | cons n rest ih => exact pairwise_insertAscending ih

theorem nodup_ascending (ids : List Nat) : (ascending ids).Nodup :=
  (pairwise_ascending ids).imp Nat.ne_of_lt

end Ascending

namespace PatternGraph
variable {g : PatternGraph} {repo : Repository} {kind : PatternKind} {rule : String}
  {ids roots : List Nat} {edges : NameMap Nat} {i j n d : Nat} {c l label : String}

section Targets

/-- The targets of the edges of some roots that come under one label. -/
def arrivals (g : PatternGraph) (repo : Repository) (kind : PatternKind) (roots : List Nat)
    (label : String) : List Nat :=
  (roots.flatMap fun root => (g.ownEdges root).entries).filterMap fun e =>
    if kind.memberLabel repo e.1 = label then some e.2 else none

theorem mem_arrivals : d ∈ g.arrivals repo kind roots label ↔
    ∃ root ∈ roots, ∃ l, (g.ownEdges root).get? l = some d ∧ kind.memberLabel repo l = label := by
  simp only [arrivals, List.mem_filterMap, List.mem_flatMap, Prod.exists,
    Option.ite_none_right_eq_some, Option.some.injEq, NameMap.get?_eq_some_iff]
  constructor
  · rintro ⟨l, _, ⟨root, hroot, he⟩, hl, rfl⟩
    exact ⟨root, hroot, l, he, hl⟩
  · rintro ⟨root, hroot, l, he, hl⟩
    exact ⟨l, d, ⟨root, hroot, he⟩, hl, rfl⟩

/-- The targets listed in an entry, the first and the others. -/
def listed : Option (Nat × List Nat) → List Nat
  | none => []
  | some (first, others) => first :: others

theorem listed_arrive (targets : NameMap (Nat × List Nat)) (k : String) :
    listed ((arrive targets k d).get? label) =
      listed (targets.get? label) ++ if k = label then [d] else [] := by
  unfold arrive
  cases ht : targets.get? k with
  | none =>
    rw [NameMap.get?_insert]
    by_cases hk : k = label
    · subst hk
      simp [ht, listed]
    · simp [hk, Ne.symm hk]
  | some t =>
    rw [NameMap.get?_insert]
    by_cases hk : k = label
    · subst hk
      simp [ht, listed]
    · simp [hk, Ne.symm hk]

theorem listed_targets (label : String) : listed ((g.targets repo kind roots).get? label) =
    g.arrivals repo kind roots label := by
  unfold targets arrivals
  generalize (roots.flatMap fun root => (g.ownEdges root).entries) = es
  suffices h : ∀ start : NameMap (Nat × List Nat), listed ((es.foldl
      (fun targets e => arrive targets (kind.memberLabel repo e.1) e.2) start).get? label) =
      listed (start.get? label) ++
        es.filterMap fun e => if kind.memberLabel repo e.1 = label then some e.2 else none from h ∅
  induction es with
  | nil => simp
  | cons e rest ih =>
    intro start
    rw [List.foldl_cons, ih, listed_arrive, List.filterMap_cons]
    by_cases he : kind.memberLabel repo e.1 = label <;> simp [he]

/-- Targets that meet are the targets under one label. -/
theorem exists_label_of_mem_meetings (h : ids ∈ meetings (g.targets repo kind roots)) :
    ∃ label, ids = g.arrivals repo kind roots label := by
  simp only [meetings, NameMap.values, List.mem_map, List.mem_filter] at h
  obtain ⟨t, ⟨⟨⟨label, _⟩, he, rfl⟩, -⟩, rfl⟩ := h
  refine ⟨label, ?_⟩
  rw [← listed_targets, NameMap.get?_eq_some_iff.2 he]
  rfl

/-- The first target under a label becomes an edge, and the others meet it. -/
theorem exists_first_of_mem_arrivals (h : d ∈ g.arrivals repo kind roots label) :
    ∃ first, ((g.targets repo kind roots).map (·.1)).get? label = some first ∧
      (d = first ∨ ∃ ids ∈ meetings (g.targets repo kind roots), first ∈ ids ∧ d ∈ ids) := by
  rw [← listed_targets] at h
  cases ht : (g.targets repo kind roots).get? label with
  | none => simp [ht, listed] at h
  | some t =>
    rw [ht] at h
    refine ⟨t.1, by rw [NameMap.get?_map, ht, Option.map_some], ?_⟩
    rcases List.mem_cons.1 h with rfl | hd
    · exact .inl rfl
    · right
      refine ⟨t.1 :: t.2, ?_, List.mem_cons_self, List.mem_cons_of_mem _ hd⟩
      simp only [meetings, NameMap.values, List.mem_map, List.mem_filter]
      refine ⟨t, ⟨⟨(label, t), NameMap.get?_eq_some_iff.1 ht, rfl⟩, ?_⟩, rfl⟩
      simp [List.ne_nil_of_mem hd]

theorem mem_arrivals_of_get?_targets
    (h : ((g.targets repo kind roots).map (·.1)).get? label = some d) :
    d ∈ g.arrivals repo kind roots label := by
  rw [NameMap.get?_map, Option.map_eq_some_iff] at h
  obtain ⟨t, ht, rfl⟩ := h
  rw [← listed_targets, ht]
  exact List.mem_cons_self

end Targets

/-- Edges lead to nodes, and each code that nodes are bound to has one class, of which one node is
recorded. -/
structure Formed (g : PatternGraph) : Prop where
  ordered : g.forest.Ordered
  edges_size : g.edges.size = g.size
  targets_lt : ∀ n l d, (g.ownEdges n).get? l = some d → d < g.size
  codes : ∀ c id, g.bound.get? c = some id → (g.node id).kind = .bound c
  recorded : ∀ n c, (g.node n).kind = .bound c → g.bound.contains c
  absorbed : ∀ n p c, g.forest.parent? n = some p → (g.node n).kind = .bound c →
    (g.node p).kind = .bound c
  unique : ∀ n m c, g.forest.parent? n = none → g.forest.parent? m = none →
    (g.node n).kind = .bound c → (g.node m).kind = .bound c → n = m

section Nodes

theorem lt_size_of_kind (h : (g.node n).kind = .bound c) : n < g.size := by
  by_contra hn
  simp [node, PatternForest.node_of_size_le (Nat.le_of_not_lt hn)] at h

theorem ownEdges_of_size_le (hg : g.edges.size = g.size) (h : g.size ≤ n) : g.ownEdges n = ∅ := by
  have hnone : g.edges[n]? = none := Array.getElem?_eq_none (by omega)
  simp [ownEdges, hnone]

theorem lt_size_of_get? (hg : g.Formed) (h : (g.ownEdges n).get? l = some d) : n < g.size := by
  by_contra hn
  simp [ownEdges_of_size_le hg.edges_size (Nat.le_of_not_lt hn)] at h

theorem kind_of_root (hn : g.forest.parent? n = none) : g.kind n = (g.node n).kind := by
  rw [kind, find, PatternForest.find_of_root hn]

theorem kind_congr (h : g.find i = g.find j) : g.kind i = g.kind j := by
  rw [kind, h, ← kind]

theorem edgesOf_congr (h : g.find i = g.find j) : g.edgesOf i = g.edgesOf j := by
  rw [edgesOf, h, ← edgesOf]

theorem target?_congr (h : g.find i = g.find j) : g.target? i l = g.target? j l := by
  rw [target?, edgesOf_congr h, ← target?]

theorem edgesOf_of_root (hn : g.forest.parent? n = none) : g.edgesOf n = g.ownEdges n := by
  rw [edgesOf, find, PatternForest.find_of_root hn]

variable (hg : g.Formed)
include hg

theorem Formed.find_find (i : Nat) : g.find (g.find i) = g.find i := hg.ordered.find_find i

theorem Formed.find_lt (hi : i < g.size) : g.find i < g.size := (hg.ordered.find_lt_iff i).2 hi

theorem Formed.find_of_size_le (hi : g.size ≤ i) : g.find i = i :=
  PatternForest.find_of_root (hg.ordered.parent?_of_size_le hi)

theorem Formed.find_ne_size (hi : i ≠ g.size) : g.find i ≠ g.size := by
  by_cases hlt : i < g.size
  · exact (hg.find_lt hlt).ne
  · rwa [hg.find_of_size_le (Nat.le_of_not_lt hlt)]

theorem Formed.kind_find (i : Nat) : g.kind (g.find i) = g.kind i := kind_congr (hg.find_find i)

theorem Formed.edgesOf_find (i : Nat) : g.edgesOf (g.find i) = g.edgesOf i :=
  edgesOf_congr (hg.find_find i)

theorem Formed.shape_find (i : Nat) : g.shape (g.find i) = g.shape i := by
  rw [shape, hg.kind_find, hg.edgesOf_find, ← shape]

/-- The class of a node that is bound to a code is bound to it. -/
theorem Formed.kind_of_bound (h : (g.node n).kind = .bound c) : g.kind n = .bound c := by
  induction n using hg.ordered.induction with
  | root n hn => rw [kind_of_root hn, h]
  | step n p hp ih =>
    rw [kind, find, hg.ordered.find_of_parent hp]
    exact ih (hg.absorbed n p c hp h)

/-- The root bound to a code is the root of the node that is recorded for it. -/
theorem Formed.find_recorded {id : Nat} (hid : g.bound.get? c = some id)
    (hn : g.forest.parent? n = none) (h : (g.node n).kind = .bound c) : g.find id = n := by
  have hkind := hg.kind_of_bound (hg.codes c id hid)
  exact hg.unique _ n c (hg.ordered.parent?_find id) hn hkind h

end Nodes

section Roots

/-- Parents are younger than their children, and edges lead to nodes. -/
structure Grounded (g : PatternGraph) : Prop where
  ordered : g.forest.Ordered
  targets_lt : ∀ n l d, (g.ownEdges n).get? l = some d → d < g.size

theorem grounded_iff : g.Grounded ↔ g.forest.parents.size = g.size ∧
    (∀ i < g.size, ∀ p ∈ g.forest.parent? i, i < p ∧ p < g.size) ∧
    ∀ n < g.edges.size, ∀ d ∈ (g.ownEdges n).values, d < g.size := by
  constructor
  · intro hg
    refine ⟨hg.ordered.parents_size, fun i _ p hp => hg.ordered.younger i p hp, fun n _ d hd => ?_⟩
    obtain ⟨⟨l, d⟩, he, rfl⟩ := List.mem_map.1 hd
    exact hg.targets_lt n l d (NameMap.get?_eq_some_iff.2 he)
  · rintro ⟨hsize, hparents, htargets⟩
    refine ⟨⟨hsize, fun i p hp => hparents i ?_ p hp⟩, fun n l d hd => htargets n ?_ d ?_⟩
    · by_contra hi
      have hnone : g.forest.parents[i]? = none :=
        Array.getElem?_eq_none (by rw [hsize]; exact Nat.le_of_not_lt hi)
      simp [PatternForest.parent?, hnone] at hp
    · by_contra hn
      simp [ownEdges, Array.getElem?_eq_none (Nat.le_of_not_lt hn)] at hd
    · exact List.mem_map.2 ⟨(l, d), NameMap.get?_eq_some_iff.1 hd, rfl⟩

instance (g : PatternGraph) : Decidable g.Grounded := decidable_of_iff _ grounded_iff.symm

theorem Formed.grounded (hg : g.Formed) : g.Grounded := ⟨hg.ordered, hg.targets_lt⟩

theorem mem_roots_iff : n ∈ g.roots ↔ n < g.size ∧ g.forest.parent? n = none := by
  simp [roots, PatternForest.isRoot]

theorem nodup_roots (g : PatternGraph) : g.roots.Nodup := List.nodup_range.filter _

theorem find_of_mem_roots (hn : n ∈ g.roots) : g.find n = n :=
  PatternForest.find_of_root (mem_roots_iff.1 hn).2

theorem Grounded.find_mem_roots (hg : g.Grounded) (hi : i < g.size) : g.find i ∈ g.roots :=
  mem_roots_iff.2 ⟨(hg.ordered.find_lt_iff i).2 hi, hg.ordered.parent?_find i⟩

theorem Grounded.target_mem_roots (hg : g.Grounded) (h : g.target? i l = some d) :
    d ∈ g.roots := by
  obtain ⟨t, ht, rfl⟩ := Option.map_eq_some_iff.1 h
  exact hg.find_mem_roots (hg.targets_lt _ l t ht)

end Roots

section Pushing

theorem pushNode_fst : (g.pushNode kind edges).1 = g.size := rfl

@[simp] theorem size_pushNode : (g.pushNode kind edges).2.size = g.size + 1 :=
  PatternForest.size_add none

theorem node_pushNode (i : Nat) :
    (g.pushNode kind edges).2.node i = if i = g.size then ⟨kind, none⟩ else g.node i :=
  PatternForest.node_add none i

theorem parent?_pushNode (i : Nat) :
    (g.pushNode kind edges).2.forest.parent? i = g.forest.parent? i :=
  PatternForest.parent?_add none i

theorem Formed.find_pushNode (hg : g.Formed) (i : Nat) :
    (g.pushNode kind edges).2.find i = g.find i := hg.ordered.find_add none i

theorem ownEdges_pushNode (hg : g.edges.size = g.size) (i : Nat) :
    (g.pushNode kind edges).2.ownEdges i = if i = g.size then edges else g.ownEdges i := by
  simp only [pushNode, ownEdges, Array.getElem?_push, hg]
  by_cases hi : i = g.size <;> simp [hi]

variable (hg : g.Formed)
include hg

theorem Formed.kind_pushNode (i : Nat) :
    (g.pushNode kind edges).2.kind i = if i = g.size then kind else g.kind i := by
  rw [PatternGraph.kind, hg.find_pushNode, node_pushNode]
  by_cases hi : i = g.size
  · simp [hi, hg.find_of_size_le]
  · rw [if_neg (hg.find_ne_size hi), if_neg hi, PatternGraph.kind]

theorem Formed.edgesOf_pushNode (i : Nat) :
    (g.pushNode kind edges).2.edgesOf i = if i = g.size then edges else g.edgesOf i := by
  rw [edgesOf, hg.find_pushNode, ownEdges_pushNode hg.edges_size]
  by_cases hi : i = g.size
  · simp [hi, hg.find_of_size_le]
  · rw [if_neg (hg.find_ne_size hi), if_neg hi, edgesOf]

theorem Formed.shape_pushNode (i : Nat) : (g.pushNode kind edges).2.shape i =
    if i = g.size then ⟨kind, edges.map fun _ => ()⟩ else g.shape i := by
  rw [shape, hg.kind_pushNode, hg.edgesOf_pushNode]
  split_ifs <;> rfl

variable (hedges : ∀ l d, edges.get? l = some d → d < g.size)
include hedges

theorem Formed.pushNode_targets_lt (n : Nat) (l : String) (d : Nat)
    (h : ((g.pushNode kind edges).2.ownEdges n).get? l = some d) : d < g.size + 1 := by
  rw [ownEdges_pushNode hg.edges_size] at h
  split_ifs at h
  · exact Nat.lt_succ_of_lt (hedges l d h)
  · exact Nat.lt_succ_of_lt (hg.targets_lt n l d h)

theorem Formed.pushNode (hkind : kind.bound? = none) : (g.pushNode kind edges).2.Formed := by
  have hnode (n : Nat) (c : String) (h : ((g.pushNode kind edges).2.node n).kind = .bound c) :
      (g.node n).kind = .bound c := by
    rw [node_pushNode] at h
    split_ifs at h
    · rw [show kind = .bound c from h] at hkind
      cases hkind
    · exact h
  have hold (n : Nat) (c : String) (h : (g.node n).kind = .bound c) :
      ((g.pushNode kind edges).2.node n).kind = .bound c := by
    rw [node_pushNode, if_neg (lt_size_of_kind h).ne, h]
  constructor
  case ordered => exact hg.ordered.add none
  case edges_size =>
    rw [size_pushNode]
    simp [PatternGraph.pushNode, hg.edges_size]
  case targets_lt =>
    rw [size_pushNode]
    exact hg.pushNode_targets_lt hedges
  case codes => exact fun c id hid => hold id c (hg.codes c id hid)
  case recorded => exact fun n c h => hg.recorded n c (hnode n c h)
  case absorbed =>
    intro n p c hp h
    rw [parent?_pushNode] at hp
    exact hold p c (hg.absorbed n p c hp (hnode n c h))
  case unique =>
    intro n m c hn hm h h'
    rw [parent?_pushNode] at hn hm
    exact hg.unique n m c hn hm (hnode n c h) (hnode m c h')

end Pushing

section Edges

@[simp] theorem size_withEdge (id : Nat) : (g.withEdge id label d).size = g.size := rfl

@[simp] theorem node_withEdge (id : Nat) : (g.withEdge id label d).node i = g.node i := rfl

@[simp] theorem find_withEdge (id : Nat) : (g.withEdge id label d).find i = g.find i := rfl

theorem ownEdges_withEdge {id : Nat} (hid : id < g.edges.size) (i : Nat) :
    (g.withEdge id label d).ownEdges i =
      if i = id then (g.ownEdges i).insert label d else g.ownEdges i := by
  simp only [withEdge, ownEdges, Array.getElem?_modify]
  by_cases hi : i = id
  · subst hi
    simp [hid]
  · simp [hi, Ne.symm hi]

theorem get?_withEdge {id : Nat} (hid : id < g.edges.size) (i : Nat) (l : String) :
    ((g.withEdge id label d).ownEdges i).get? l =
      if i = id ∧ l = label then some d else (g.ownEdges i).get? l := by
  rw [ownEdges_withEdge hid]
  by_cases hi : i = id <;> simp [hi, NameMap.get?_insert]

theorem Formed.withEdge {id : Nat} (hg : g.Formed) (hid : id < g.size) (hd : d < g.size) :
    (g.withEdge id label d).Formed where
  ordered := hg.ordered
  edges_size := by
    rw [size_withEdge, ← hg.edges_size]
    simp [PatternGraph.withEdge]
  targets_lt n l e h := by
    rw [get?_withEdge (hg.edges_size ▸ hid)] at h
    split_ifs at h
    · obtain rfl := Option.some.inj h
      exact hd
    · exact hg.targets_lt n l e h
  codes := hg.codes
  recorded := hg.recorded
  absorbed := hg.absorbed
  unique := hg.unique

end Edges

section Joining

/-- The graph with a new root above the given ones, which has the first of their edges under each
label. -/
def joinRoots (g : PatternGraph) (repo : Repository) (kind : PatternKind) (rule : String)
    (roots : List Nat) : PatternGraph :=
  { g with
    forest := g.forest.adopt kind rule roots
    edges := g.edges.push ((g.targets repo kind roots).map (·.1)) }

@[simp] theorem size_joinRoots : (g.joinRoots repo kind rule roots).size = g.size + 1 :=
  PatternForest.size_adopt

theorem node_joinRoots (i : Nat) : (g.joinRoots repo kind rule roots).node i =
    if i = g.size then ⟨kind, some rule⟩ else g.node i := PatternForest.node_adopt i

theorem ownEdges_joinRoots (hg : g.edges.size = g.size) (i : Nat) :
    (g.joinRoots repo kind rule roots).ownEdges i =
      if i = g.size then (g.targets repo kind roots).map (·.1) else g.ownEdges i := by
  simp only [joinRoots, ownEdges, Array.getElem?_push, hg]
  by_cases hi : i = g.size <;> simp [hi]

/-- The given nodes are roots. -/
def AreRoots (g : PatternGraph) (roots : List Nat) : Prop :=
  ∀ r ∈ roots, r < g.size ∧ g.forest.parent? r = none

theorem AreRoots.find_eq (hroots : g.AreRoots roots) (hi : i ∈ roots) : g.find i = i :=
  PatternForest.find_of_root (hroots i hi).2

theorem Formed.areRoots (hg : g.Formed) (hids : ∀ id ∈ ids, id < g.size) :
    g.AreRoots (ascending (ids.map g.find)) := by
  intro r hr
  obtain ⟨id, hid, rfl⟩ := List.mem_map.1 (mem_ascending.1 hr)
  exact ⟨hg.find_lt (hids id hid), hg.ordered.parent?_find id⟩

theorem Formed.areRoots_of_eq (hg : g.Formed) (hids : ∀ id ∈ ids, id < g.size)
    (hroots : roots = ascending (ids.map g.find)) : g.AreRoots roots := hroots ▸ hg.areRoots hids

variable (hg : g.Formed) (hroots : g.AreRoots roots)
include hg hroots

theorem Formed.find_joinRoots (i : Nat) : (g.joinRoots repo kind rule roots).find i =
    if g.find i ∈ roots then g.size else g.find i :=
  hg.ordered.find_adopt (fun r hr => (hroots r hr).1) (fun r hr => (hroots r hr).2) i

theorem Formed.parent?_joinRoots (i : Nat) :
    (g.joinRoots repo kind rule roots).forest.parent? i =
      if i ∈ roots then some g.size else g.forest.parent? i :=
  hg.ordered.parent?_adopt (fun r hr => (hroots r hr).1) i

/-- The class of the new root. -/
theorem Formed.find_joinRoots_of_mem (hi : g.find i ∈ roots) :
    (g.joinRoots repo kind rule roots).find i = g.size := by
  rw [hg.find_joinRoots hroots, if_pos hi]

theorem Formed.find_joinRoots_size : (g.joinRoots repo kind rule roots).find g.size = g.size := by
  rw [hg.find_joinRoots hroots, hg.find_of_size_le le_rfl, if_neg fun hin => (hroots _ hin).1.false]

theorem Formed.find_joinRoots_of_notMem (hi : g.find i ∉ roots) :
    (g.joinRoots repo kind rule roots).find i = g.find i := by
  rw [hg.find_joinRoots hroots, if_neg hi]

theorem Formed.kind_joinRoots_of_mem (hi : g.find i ∈ roots) :
    (g.joinRoots repo kind rule roots).kind i = kind := by
  rw [PatternGraph.kind, hg.find_joinRoots_of_mem hroots hi, node_joinRoots, if_pos rfl]

theorem Formed.kind_joinRoots_size : (g.joinRoots repo kind rule roots).kind g.size = kind := by
  rw [PatternGraph.kind, hg.find_joinRoots_size hroots, node_joinRoots, if_pos rfl]

theorem Formed.kind_joinRoots_of_notMem (hlt : i < g.size) (hi : g.find i ∉ roots) :
    (g.joinRoots repo kind rule roots).kind i = g.kind i := by
  rw [PatternGraph.kind, hg.find_joinRoots_of_notMem hroots hi, node_joinRoots,
    if_neg (hg.find_lt hlt).ne, ← PatternGraph.kind]

theorem Formed.edgesOf_joinRoots_of_mem (hi : g.find i ∈ roots) :
    (g.joinRoots repo kind rule roots).edgesOf i = (g.targets repo kind roots).map (·.1) := by
  rw [edgesOf, hg.find_joinRoots_of_mem hroots hi, ownEdges_joinRoots hg.edges_size, if_pos rfl]

theorem Formed.edgesOf_joinRoots_size : (g.joinRoots repo kind rule roots).edgesOf g.size =
    (g.targets repo kind roots).map (·.1) := by
  rw [edgesOf, hg.find_joinRoots_size hroots, ownEdges_joinRoots hg.edges_size, if_pos rfl]

theorem Formed.edgesOf_joinRoots_of_notMem (hlt : i < g.size) (hi : g.find i ∉ roots) :
    (g.joinRoots repo kind rule roots).edgesOf i = g.edgesOf i := by
  rw [edgesOf, hg.find_joinRoots_of_notMem hroots hi, ownEdges_joinRoots hg.edges_size,
    if_neg (hg.find_lt hlt).ne, ← edgesOf]

/-- Nodes of one class stay in one class. -/
theorem Formed.find_joinRoots_eq (h : g.find i = g.find j) :
    (g.joinRoots repo kind rule roots).find i = (g.joinRoots repo kind rule roots).find j := by
  rw [hg.find_joinRoots hroots, hg.find_joinRoots hroots, h]

/-- A root of a code that is put below a root of that code, together with the root of the code. -/
theorem Formed.joinRoots (hconflict : g.forest.conflict kind roots = none)
    (hcode : ∀ c, kind = .bound c → ∃ r ∈ roots, (g.node r).kind = .bound c) :
    (g.joinRoots repo kind rule roots).Formed := by
  rw [PatternForest.conflict_eq_none_iff] at hconflict
  have hold (n : Nat) (c : String) (h : (g.node n).kind = .bound c) :
      ((g.joinRoots repo kind rule roots).node n).kind = .bound c := by
    rw [node_joinRoots, if_neg (lt_size_of_kind h).ne, h]
  -- Above the other roots, only the new root can be bound to the code of the new root.
  have htop (m : Nat) (c : String) (hkind : kind = .bound c) (hin : m ∉ roots)
      (hm : g.forest.parent? m = none) (h : (g.node m).kind = .bound c) : False := by
    obtain ⟨r, hr, hr'⟩ := hcode c hkind
    obtain rfl := hg.unique m r c hm (hroots r hr).2 h hr'
    exact hin hr
  constructor
  case ordered => exact hg.ordered.adopt fun r hr => (hroots r hr).1
  case edges_size =>
    rw [size_joinRoots]
    simp [PatternGraph.joinRoots, hg.edges_size]
  case targets_lt =>
    intro n l d h
    rw [ownEdges_joinRoots hg.edges_size] at h
    rw [size_joinRoots]
    split_ifs at h
    · obtain ⟨root, -, k, hk, -⟩ := mem_arrivals.1 (mem_arrivals_of_get?_targets h)
      exact Nat.lt_succ_of_lt (hg.targets_lt root k d hk)
    · exact Nat.lt_succ_of_lt (hg.targets_lt n l d h)
  case codes => exact fun c id hid => hold id c (hg.codes c id hid)
  case recorded =>
    intro n c h
    rw [node_joinRoots] at h
    split_ifs at h
    · obtain ⟨r, -, hr⟩ := hcode c h
      exact hg.recorded r c hr
    · exact hg.recorded n c h
  case absorbed =>
    intro n p c hp h
    rw [hg.parent?_joinRoots hroots] at hp
    have hn : (g.node n).kind = .bound c := by
      rw [node_joinRoots] at h
      split_ifs at h with hn
      · rw [hn, if_neg fun hin => (hroots _ hin).1.false] at hp
        exact absurd hp (by simp [hg.ordered.parent?_of_size_le (Nat.le_refl g.size)])
      · exact h
    split_ifs at hp with hin
    · obtain rfl := Option.some.inj hp
      rw [node_joinRoots, if_pos rfl]
      exact hconflict n hin c hn
    · exact hold p c (hg.absorbed n p c hp hn)
  case unique =>
    intro n m c hn hm h h'
    rw [hg.parent?_joinRoots hroots] at hn hm
    rw [node_joinRoots] at h h'
    split_ifs at hn hm h h' with hn' hm' hn'' hm''
    · rw [hn'', hm'']
    · exact (htop m c h hm' hm h').elim
    · exact (htop n c h' hn' hn h).elim
    · exact hg.unique n m c hn hm h h'

theorem Formed.card_classes_joinRoots (hnodup : roots.Nodup) :
    (g.joinRoots repo kind rule roots).forest.classes.card + roots.length =
      g.forest.classes.card + 1 :=
  hg.ordered.card_classes_adopt (fun r hr => (hroots r hr).1) (fun r hr => (hroots r hr).2) hnodup

end Joining

end PatternGraph

end StructuralTyping
