import StructuralTyping.Proofs.MergeSteps
import StructuralTyping.Proofs.Registration

/-!
# Settled graphs

In a settled graph no edge is lost: what an edge of a node leads to, the class of the node leads to,
under the label that the kind of the class keeps the edge under. While classes are merged this holds
up to what is still to become one class. The shape of a class is above the shapes of all its nodes,
and where a class is a code, its labels are those of the code. Each operation on graphs keeps graphs
settled, if the names in the repository mean what they should.
-/
namespace StructuralTyping

namespace Repository
variable {repo : Repository} {c l r : String} {references : List (String × String)}

/-- A builtin or the name of a code. -/
def Known (repo : Repository) (c : String) : Prop := Text.isBuiltin c ∨ repo.codes.contains c

theorem Known.canonical (h : repo.Known c) : repo.canonical c = some c := by
  rcases h with h | h <;> simp [Repository.canonical, h]

/-- Every alias stands for a builtin or an entry. -/
def AliasesKnown (repo : Repository) : Prop :=
  ∀ n c, repo.aliases.get? n = some c → repo.Known c

/-- Every name that is known stands for a builtin or an entry. -/
theorem AliasesKnown.known (hrepo : repo.AliasesKnown) {n : String}
    (h : repo.canonical n = some c) : repo.Known c := by
  unfold Repository.canonical at h
  split_ifs at h with hn
  · obtain rfl := Option.some.inj h
    simpa [Known] using hn
  · exact hrepo n c h

theorem Consistent.aliasesKnown (hrepo : repo.Consistent) : repo.AliasesKnown := hrepo.aliases

theorem find_of_isBuiltin (h : Text.isBuiltin c) : repo.find c = .builtin c := by
  simp [find, Repository.canonical, h]

theorem Consistent.find_of_get? (hrepo : repo.Consistent) {code : Code String}
    (h : repo.codes.get? c = some code) : repo.find c = .code code := by
  have hin := NameMap.contains_of_get? h
  have hbuiltin := hrepo.canonical.closed.names c hin
  have hcanonical : repo.canonical c = some c := Known.canonical (.inr hin)
  simp [find, hcanonical, hbuiltin, h]

theorem mem_references_iff (h : repo.references? c = some references) :
    (l, r) ∈ references ↔ repo.reference? c l = some r := by
  unfold references? at h
  unfold reference?
  cases hc : repo.find c with
  | undefined => simp [hc] at h
  | builtin b =>
    simp only [hc, Option.some.injEq] at h
    simp [← h]
  | code code =>
    cases code with
    | product fields =>
      simp only [hc, Option.some.injEq] at h
      simp [← h, NameMap.get?_eq_some_iff]
    | union fields =>
      simp only [hc, Option.some.injEq] at h
      simp [← h, NameMap.get?_eq_some_iff]
    | vector element =>
      simp only [hc, Option.some.injEq] at h
      simp [← h, eq_comm]

theorem mem_labels_iff (h : repo.references? c = some references) :
    l ∈ references.map (·.1) ↔ (repo.reference? c l).isSome := by
  simp [Option.isSome_iff_exists, ← mem_references_iff h]

/-- What a code refers to is known. -/
theorem Consistent.reference_known (hrepo : repo.Consistent) (hc : repo.Known c)
    (h : repo.reference? c l = some r) : repo.Known r := by
  rcases hc with hc | hc
  · simp [reference?, find_of_isBuiltin hc] at h
  · obtain ⟨code, hcode⟩ := NameMap.contains_iff.1 hc
    refine hrepo.canonical.closed.refs c code hcode r ?_
    simp only [reference?, hrepo.find_of_get? hcode] at h
    cases code with
    | product fields => exact List.mem_map.2 ⟨(l, r), NameMap.get?_eq_some_iff.1 h, rfl⟩
    | union fields => exact List.mem_map.2 ⟨(l, r), NameMap.get?_eq_some_iff.1 h, rfl⟩
    | vector element =>
      simp only [Option.ite_none_right_eq_some, Option.some.injEq] at h
      simp [Code.refs, h.2]

end Repository

namespace PatternGraph
variable {g g' : PatternGraph} {repo : Repository} {kind : PatternKind} {rule : String}
  {ids roots : List Nat} {pending pending' rest : List (List Nat)} {joined : Shape}
  {edges : NameMap Nat} {a b d i id n : Nat} {c l label name : String}

/-- What a node itself says. -/
def ownShape (g : PatternGraph) (n : Nat) : Shape :=
  ⟨(g.node n).kind, (g.ownEdges n).map fun _ => ()⟩

theorem shape_eq_ownShape (n : Nat) : g.shape n = g.ownShape (g.find n) := rfl

theorem contains_ownShape : (g.ownShape n).labels.contains l ↔ (g.ownEdges n).contains l :=
  NameMap.contains_map

/-- Two nodes are of one class, or will be once all lists of nodes are merged. -/
def Linked (g : PatternGraph) (pending : List (List Nat)) : Nat → Nat → Prop :=
  Relation.EqvGen fun a b => g.find a = g.find b ∨ ∃ ids ∈ pending, a ∈ ids ∧ b ∈ ids

theorem Linked.of_find_eq (h : g.find a = g.find b) : Linked g pending a b := .rel _ _ (.inl h)

theorem linked_nil_iff : Linked g [] a b ↔ g.find a = g.find b := by
  have heq : Equivalence fun a b => g.find a = g.find b ∨ ∃ ids ∈ ([] : List (List Nat)),
      a ∈ ids ∧ b ∈ ids := by
    simpa using (⟨fun _ => rfl, Eq.symm, Eq.trans⟩ : Equivalence fun a b => g.find a = g.find b)
  rw [Linked, heq.eqvGen_iff]
  simp

theorem Linked.mono (h : Linked g pending a b)
    (hfind : ∀ a b, g.find a = g.find b → Linked g' pending' a b)
    (hpending : ∀ ids ∈ pending, ∀ a ∈ ids, ∀ b ∈ ids, Linked g' pending' a b) :
    Linked g' pending' a b := by
  induction h with
  | rel a b h =>
    rcases h with h | ⟨ids, hids, ha, hb⟩
    · exact hfind a b h
    · exact hpending ids hids a ha b hb
  | refl a => exact .refl a
  | symm a b _ ih => exact .symm _ _ ih
  | trans a b c _ _ ih ih' => exact .trans _ _ _ ih ih'

theorem Linked.congr (h : Linked g pending a b) (hfind : ∀ n, g'.find n = g.find n) :
    Linked g' pending a b :=
  h.mono (fun a b hab => .of_find_eq (by rw [hfind, hfind, hab]))
    fun ids hids _ ha _ hb => .rel _ _ (.inr ⟨ids, hids, ha, hb⟩)

/-- No edge is lost, and what classes say goes together with what their nodes and their codes say.
-/
structure Settled (repo : Repository) (g : PatternGraph) (pending : List (List Nat)) : Prop where
  ready : Ready (g, pending)
  known : ∀ c, g.bound.contains c → repo.Known c
  seeded : ∀ c id, g.bound.get? c = some id → g.Seeded repo c id
  normal : ∀ n, (g.ownShape n).Normal repo
  fits : ∀ n, (g.ownShape n).Fits repo
  above : ∀ n, (g.ownShape n).Below repo (g.shape n)
  kept : ∀ n l d, (g.ownEdges n).get? l = some d →
    ∃ d', (g.edgesOf n).get? ((g.kind n).memberLabel repo l) = some d' ∧ Linked g pending d d'

theorem Settled.formed (h : g.Settled repo pending) : g.Formed := h.ready.formed

/-- Nodes that are given to be merged are to become one class. -/
theorem Settled.cons (h : g.Settled repo pending) (hids : ∀ id ∈ ids, id < g.size) :
    g.Settled repo (ids :: pending) where
  ready := ⟨h.formed, List.forall_mem_cons.2 ⟨hids, h.ready.pending_lt⟩⟩
  known := h.known
  seeded := h.seeded
  normal := h.normal
  fits := h.fits
  above := h.above
  kept n l d hd := by
    obtain ⟨d', hd', hlinked⟩ := h.kept n l d hd
    refine ⟨d', hd', hlinked.mono (fun _ _ => .of_find_eq) fun ids' hids' a ha b hb => ?_⟩
    exact .rel _ _ (.inr ⟨ids', List.mem_cons_of_mem _ hids', ha, hb⟩)

theorem Settled.target?_of_get? (h : g.Settled repo []) {l : String} {d : Nat}
    (hd : (g.ownEdges n).get? l = some d) :
    g.target? n ((g.kind n).memberLabel repo l) = some (g.find d) := by
  obtain ⟨d', hd', hlinked⟩ := h.kept n l d hd
  rw [target?, hd', Option.map_some, linked_nil_iff.1 hlinked]

section Merging

theorem find_eq_of_length_le_one (h : (ascending (ids.map g.find)).length ≤ 1) (ha : a ∈ ids)
    (hb : b ∈ ids) : g.find a = g.find b := by
  have hmem {i : Nat} (hi : i ∈ ids) : g.find i ∈ ascending (ids.map g.find) :=
    mem_ascending.2 (List.mem_map_of_mem hi)
  match hroots : ascending (ids.map g.find) with
  | [] => exact absurd (hmem ha) (by simp [hroots])
  | [r] =>
    have ha' := hmem ha
    have hb' := hmem hb
    rw [hroots, List.mem_singleton] at ha' hb'
    rw [ha', hb']
  | _ :: _ :: _ => simp [hroots] at h

theorem length_ascending_le_one (h : ∀ a ∈ ids, ∀ b ∈ ids, g.find a = g.find b) :
    (ascending (ids.map g.find)).length ≤ 1 := by
  have hmem {i : Nat} (hi : i ∈ ascending (ids.map g.find)) : ∃ a ∈ ids, g.find a = i :=
    List.mem_map.1 (mem_ascending.1 hi)
  match hroots : ascending (ids.map g.find) with
  | [] => simp
  | [_] => simp
  | i :: j :: rest =>
    obtain ⟨a, ha, rfl⟩ := hmem (i := i) (by simp [hroots])
    obtain ⟨b, hb, rfl⟩ := hmem (i := j) (by simp [hroots])
    have hnodup := nodup_ascending (ids.map g.find)
    rw [hroots, List.nodup_cons] at hnodup
    exact absurd (h a ha b hb) fun heq => hnodup.1 (heq ▸ List.mem_cons_self)

/-- The labels under which the edges of some roots arrive are those of the join of their shapes. -/
theorem targets_labels (hjoin : Shape.IsJoin repo (roots.map g.shape) joined)
    (hroots : g.AreRoots roots) :
    ((g.targets repo joined.kind roots).map (·.1)).map (fun _ => ()) = joined.labels := by
  apply NameSet.eq_of_contains_iff
  intro x
  rw [NameMap.contains_map, hjoin.labels]
  constructor
  · intro hx
    obtain ⟨d, hd⟩ := NameMap.contains_iff.1 hx
    obtain ⟨root, hroot, l, hl, rfl⟩ := mem_arrivals.1 (mem_arrivals_of_get?_targets hd)
    refine ⟨_, List.mem_map_of_mem hroot, l, ?_, rfl⟩
    rw [← edgesOf_of_root (hroots root hroot).2] at hl
    exact NameMap.contains_map.2 (NameMap.contains_of_get? hl)
  · rintro ⟨s, hs, l, hl, rfl⟩
    obtain ⟨root, hroot, rfl⟩ := List.mem_map.1 hs
    obtain ⟨d, hd⟩ := NameMap.contains_iff.1 (NameMap.contains_map.1 hl)
    rw [edgesOf_of_root (hroots root hroot).2] at hd
    obtain ⟨first, hfirst, -⟩ := exists_first_of_mem_arrivals
      (mem_arrivals.2 ⟨root, hroot, l, hd, rfl⟩)
    exact NameMap.contains_of_get? hfirst

theorem ownShape_joinRoots (hg : g.Formed) (hroots : g.AreRoots roots)
    (hjoin : Shape.IsJoin repo (roots.map g.shape) joined) (i : Nat) :
    (g.joinRoots repo joined.kind rule roots).ownShape i =
      if i = g.size then joined else g.ownShape i := by
  unfold ownShape
  rw [node_joinRoots, ownEdges_joinRoots hg.edges_size]
  split_ifs
  · rw [targets_labels hjoin hroots]
  · rfl

/-- What is to become one class still is after some of it has become one class. -/
theorem Linked.joinRoots (hg : g.Formed) (hids : ∀ id ∈ ids, id < g.size)
    (hroots : roots = ascending (ids.map g.find)) (h : Linked g (ids :: rest) a b) :
    Linked (g.joinRoots repo kind rule roots) (meetings (g.targets repo kind roots) ++ rest)
      a b := by
  have hare := hg.areRoots_of_eq hids hroots
  refine h.mono (fun a b hab => .of_find_eq (hg.find_joinRoots_eq hare hab)) ?_
  intro ids' hids' a ha b hb
  rcases List.mem_cons.1 hids' with rfl | hrest
  · have hmem {i : Nat} (hi : i ∈ ids') : g.find i ∈ roots :=
      hroots ▸ mem_ascending.2 (List.mem_map_of_mem hi)
    apply Linked.of_find_eq
    rw [hg.find_joinRoots_of_mem hare (hmem ha), hg.find_joinRoots_of_mem hare (hmem hb)]
  · exact .rel _ _ (.inr ⟨ids', List.mem_append_right _ hrest, ha, hb⟩)

theorem Linked.mergeStep (h : Linked g pending a b) (hready : Ready (g, pending))
    (hstep : MergeStep repo rule (g, pending) (g', pending')) : Linked g' pending' a b := by
  cases hstep with
  | same hsame =>
    refine h.mono (fun _ _ => .of_find_eq) fun ids' hids' a ha b hb => ?_
    rcases List.mem_cons.1 hids' with rfl | hrest
    · exact .of_find_eq (find_eq_of_length_le_one hsame ha hb)
    · exact .rel _ _ (.inr ⟨ids', hrest, ha, hb⟩)
  | join hroots hseveral hjoin hconflict => exact h.joinRoots hready.formed hready.head_lt hroots

/-- The edges of the nodes of merged classes arrive at the new root. -/
theorem Settled.kept_joinRoots (h : g.Settled repo (ids :: rest))
    (hroots : roots = ascending (ids.map g.find))
    (hjoin : Shape.IsJoin repo (roots.map g.shape) joined)
    (hd : (g.ownEdges n).get? l = some d) :
    ∃ d', ((g.joinRoots repo joined.kind rule roots).edgesOf n).get?
        (((g.joinRoots repo joined.kind rule roots).kind n).memberLabel repo l) = some d' ∧
      Linked (g.joinRoots repo joined.kind rule roots)
        (meetings (g.targets repo joined.kind roots) ++ rest) d d' := by
  have hg := h.formed
  have hids := h.ready.head_lt
  have hare := hg.areRoots_of_eq hids hroots
  have hlt := lt_size_of_get? hg hd
  obtain ⟨d', hd', hlinked⟩ := h.kept n l d hd
  have hlinked' : Linked (g.joinRoots repo joined.kind rule roots)
      (meetings (g.targets repo joined.kind roots) ++ rest) d d' :=
    hlinked.joinRoots hg hids hroots
  by_cases hin : g.find n ∈ roots
  · rw [hg.edgesOf_joinRoots_of_mem hare hin, hg.kind_joinRoots_of_mem hare hin]
    -- The edge of the class arrives under the label that the edge of the node has in the end.
    have hbelow := hjoin.below _ (List.mem_map_of_mem hin)
    rw [hg.shape_find] at hbelow
    have harrives : d' ∈ g.arrivals repo joined.kind roots (joined.kind.memberLabel repo l) :=
      mem_arrivals.2 ⟨g.find n, hin, _, hd', PatternKind.memberLabel_memberLabel hbelow.isVector⟩
    obtain ⟨first, hfirst, hmeet⟩ := exists_first_of_mem_arrivals harrives
    refine ⟨first, hfirst, ?_⟩
    rcases hmeet with rfl | ⟨ids', hids', hfirst', hd''⟩
    · exact hlinked'
    · have hmeet := List.mem_append_left rest hids'
      exact .trans _ _ _ hlinked' (.rel _ _ (.inr ⟨ids', hmeet, hd'', hfirst'⟩))
  · refine ⟨d', ?_, hlinked'⟩
    rw [hg.edgesOf_joinRoots_of_notMem hare hlt hin, hg.kind_joinRoots_of_notMem hare hlt hin, hd']

theorem Settled.joinRoots (h : g.Settled repo (ids :: rest))
    (hroots : roots = ascending (ids.map g.find))
    (hjoin : Shape.IsJoin repo (roots.map g.shape) joined)
    (hready : Ready (g.joinRoots repo joined.kind rule roots,
      meetings (g.targets repo joined.kind roots) ++ rest)) :
    (g.joinRoots repo joined.kind rule roots).Settled repo
      (meetings (g.targets repo joined.kind roots) ++ rest) := by
  have hg := h.formed
  have hids := h.ready.head_lt
  have hare := hg.areRoots_of_eq hids hroots
  have hown (i : Nat) : (g.joinRoots repo joined.kind rule roots).ownShape i = _ :=
    ownShape_joinRoots hg hare hjoin i
  have hedges (i : Nat) : (g.joinRoots repo joined.kind rule roots).ownEdges i = _ :=
    ownEdges_joinRoots hg.edges_size i
  constructor
  case ready => exact hready
  case known => exact h.known
  case seeded =>
    intro c id hid
    have hlt := lt_size_of_kind (hg.codes c id hid)
    exact (h.seeded c id hid).of_ownEdges_eq (fun _ _ h => h) (by rw [hedges, if_neg hlt.ne])
  case normal =>
    intro n
    rw [hown]
    split_ifs
    · exact hjoin.normal
    · exact h.normal n
  case fits =>
    intro n
    rw [hown]
    split_ifs
    · refine hjoin.fits fun s hs => ?_
      obtain ⟨r, -, rfl⟩ := List.mem_map.1 hs
      exact h.fits _
    · exact h.fits n
  case above =>
    intro n
    rw [shape_eq_ownShape, hown, hown]
    by_cases hn : n = g.size
    · rw [hn, hg.find_joinRoots_size hare, if_pos rfl]
      exact .refl hjoin.normal
    · rw [if_neg hn]
      by_cases hin : g.find n ∈ roots
      · rw [hg.find_joinRoots_of_mem hare hin, if_pos rfl]
        have hshape := hjoin.below _ (List.mem_map_of_mem hin)
        rw [hg.shape_find] at hshape
        exact (h.above n).trans hshape
      · rw [hg.find_joinRoots_of_notMem hare hin, if_neg (hg.find_ne_size hn)]
        exact h.above n
  case kept =>
    intro n l d hd
    rw [hedges] at hd
    split_ifs at hd with hn
    · refine ⟨d, ?_, .refl _⟩
      rw [hn, hg.edgesOf_joinRoots_size hare, hg.kind_joinRoots_size hare]
      obtain ⟨-, -, k, -, rfl⟩ := mem_arrivals.1 (mem_arrivals_of_get?_targets hd)
      rwa [PatternKind.memberLabel_idem]
    · exact h.kept_joinRoots hroots hjoin hd

theorem Settled.mergeStep (h : g.Settled repo pending)
    (hstep : MergeStep repo rule (g, pending) (g', pending')) : g'.Settled repo pending' := by
  have hready := hstep.ready h.ready
  have hlinks {a b : Nat} (hab : Linked g pending a b) : Linked g' pending' a b :=
    hab.mergeStep h.ready hstep
  cases hstep with
  | same hsame =>
    refine ⟨hready, h.known, h.seeded, h.normal, h.fits, h.above, fun n l d hd => ?_⟩
    obtain ⟨d', hd', hlinked⟩ := h.kept n l d hd
    exact ⟨d', hd', hlinks hlinked⟩
  | join hroots hseveral hjoin hconflict => exact h.joinRoots hroots hjoin hready

theorem Linked.mergeRun (h : Linked g pending a b) (hready : Ready (g, pending))
    (hrun : MergeRun repo rule (g, pending) (g', pending')) : Linked g' pending' a b := by
  generalize ht : (g', pending') = t at hrun
  induction hrun generalizing g' pending' with
  | refl =>
    rw [Prod.mk.injEq] at ht
    rwa [ht.1, ht.2]
  | tail hrun hstep ih =>
    subst ht
    exact (ih rfl).mergeStep (MergeRun.ready hrun hready) hstep

theorem Settled.mergeRun (h : g.Settled repo pending)
    (hrun : MergeRun repo rule (g, pending) (g', pending')) : g'.Settled repo pending' := by
  generalize ht : (g', pending') = t at hrun
  induction hrun generalizing g' pending' with
  | refl =>
    rw [Prod.mk.injEq] at ht
    rwa [ht.1, ht.2]
  | tail _ hstep ih =>
    subst ht
    exact (ih rfl).mergeStep hstep

/-- Merging some nodes leaves a settled graph settled. -/
theorem Settled.merges {changed : Bool} (h : g.Settled repo pending)
    (hids : ∀ id ∈ ids, id < g.size) (hm : Build.Merges repo rule ids g changed g') :
    g'.Settled repo pending :=
  (h.cons hids).mergeRun (hm.run pending)

end Merging

section Extending

theorem ownShape_of_size_le (hg : g.Formed) (hn : g.size ≤ n) :
    g.ownShape n = ⟨.unconstrained, ∅⟩ := by
  rw [ownShape, ownEdges_of_size_le hg.edges_size hn, node, PatternForest.node_of_size_le hn]
  rfl

theorem normal_empty : Shape.Normal repo ⟨kind, ∅⟩ := by
  intro x hx
  simp [NameMap.contains] at hx

theorem fits_of_bound?_eq_none {s : Shape} (h : s.kind.bound? = none) : s.Fits repo := by
  intro c hc
  rw [hc] at h
  cases h

/-- The graph without nodes is settled. -/
theorem settled_empty : ({} : PatternGraph).Settled repo [] := by
  have hformed : ({} : PatternGraph).Formed := by
    refine ⟨⟨rfl, fun i p hp => ?_⟩, rfl, fun n l d hd => ?_, fun c id hid => ?_, fun n c hc => ?_,
      fun n p c hp => ?_, fun n m c _ _ hc => ?_⟩
    · cases hp
    · cases hd
    · cases hid
    · cases hc
    · cases hp
    · cases hc
  constructor
  case ready => exact ready_nil_iff.2 hformed
  case known => exact fun c hc => by cases hc
  case seeded => exact fun c id hid => by cases hid
  case normal => exact fun n => normal_empty
  case fits => exact fun n => fits_of_bound?_eq_none rfl
  case above => exact fun n => .refl normal_empty
  case kept => exact fun n l d hd => by cases hd

/-- New roots that say what they should leave a graph settled. -/
theorem Settled.extend (h : g.Settled repo pending) (hg' : g'.Formed) (hsize : g.size ≤ g'.size)
    (hnode : ∀ n < g.size, g'.node n = g.node n)
    (hparent : ∀ n, g'.forest.parent? n = g.forest.parent? n)
    (hedges : ∀ n < g.size, g'.ownEdges n = g.ownEdges n)
    (hknown : ∀ c, g'.bound.contains c → repo.Known c)
    (hseeded : ∀ c id, g'.bound.get? c = some id → g'.Seeded repo c id)
    (hnormal : ∀ n, g.size ≤ n → (g'.ownShape n).Normal repo)
    (hfits : ∀ n, g.size ≤ n → (g'.ownShape n).Fits repo) : g'.Settled repo pending := by
  have hg := h.formed
  have hfind (n : Nat) : g'.find n = g.find n := hg.ordered.find_congr hg'.ordered hparent n
  have hown (n : Nat) (hn : n < g.size) : g'.ownShape n = g.ownShape n := by
    rw [ownShape, ownShape, hnode n hn, hedges n hn]
  have hnormal' (n : Nat) : (g'.ownShape n).Normal repo := by
    by_cases hn : n < g.size
    · rw [hown n hn]
      exact h.normal n
    · exact hnormal n (Nat.le_of_not_lt hn)
  have hready : Ready (g', pending) :=
    ⟨hg', fun ids hids id hid => (h.ready.pending_lt ids hids id hid).trans_le hsize⟩
  refine ⟨hready, hknown, hseeded, hnormal', fun n => ?_, fun n => ?_, fun n l d hd => ?_⟩
  · by_cases hn : n < g.size
    · rw [hown n hn]
      exact h.fits n
    · exact hfits n (Nat.le_of_not_lt hn)
  · by_cases hn : n < g.size
    · rw [shape_eq_ownShape, hfind, hown n hn, hown _ (hg.find_lt hn)]
      exact h.above n
    · rw [shape_eq_ownShape, hfind, hg.find_of_size_le (Nat.le_of_not_lt hn)]
      exact .refl (hnormal' n)
  · by_cases hn : n < g.size
    · rw [hedges n hn] at hd
      obtain ⟨d', hd', hlinked⟩ := h.kept n l d hd
      refine ⟨d', ?_, hlinked.congr hfind⟩
      rw [edgesOf, kind, hfind, hedges _ (hg.find_lt hn), hnode _ (hg.find_lt hn)]
      exact hd'
    · have hlabel : (g'.node n).kind.memberLabel repo l = l :=
        hnormal' n l (contains_ownShape.2 (NameMap.contains_of_get? hd))
      refine ⟨d, ?_, .refl _⟩
      rw [edgesOf, kind, hfind, hg.find_of_size_le (Nat.le_of_not_lt hn), hlabel]
      exact hd

theorem Formed.ownShape_pushNode (hg : g.Formed) (kind : PatternKind) (edges : NameMap Nat) :
    (g.pushNode kind edges).2.ownShape g.size = ⟨kind, edges.map fun _ => ()⟩ := by
  rw [ownShape, node_pushNode, ownEdges_pushNode hg.edges_size, if_pos rfl, if_pos rfl]

/-- A new pattern that is not a code. -/
theorem Settled.pushNode (h : g.Settled repo pending) (hkind : kind.bound? = none)
    (hedges : ∀ l d, edges.get? l = some d → d < g.size)
    (hnormal : ∀ l, edges.contains l → kind.memberLabel repo l = l) :
    (g.pushNode kind edges).2.Settled repo pending := by
  have hg := h.formed
  have hg' : (g.pushNode kind edges).2.Formed := hg.pushNode hedges hkind
  have hedges' (n : Nat) : (g.pushNode kind edges).2.ownEdges n = _ :=
    ownEdges_pushNode hg.edges_size n
  have hnew : (g.pushNode kind edges).2.ownShape g.size = _ := hg.ownShape_pushNode kind edges
  have hbeyond (n : Nat) (hn : g.size ≤ n) (hne : n ≠ g.size) :
      (g.pushNode kind edges).2.ownShape n = ⟨.unconstrained, ∅⟩ :=
    ownShape_of_size_le hg' (by rw [size_pushNode]; omega)
  refine h.extend hg' (by simp) (fun n hn => ?_) parent?_pushNode (fun n hn => ?_) h.known
    (fun c id hid => ?_) (fun n hn => ?_) fun n hn => ?_
  · rw [node_pushNode, if_neg hn.ne]
  · rw [hedges', if_neg hn.ne]
  · have hlt := lt_size_of_kind (hg.codes c id hid)
    exact (h.seeded c id hid).of_ownEdges_eq (fun _ _ h => h) (by rw [hedges', if_neg hlt.ne])
  · by_cases hsize : n = g.size
    · rw [hsize, hnew]
      exact fun x hx => hnormal x (NameMap.contains_map.1 hx)
    · rw [hbeyond n hn hsize]
      exact normal_empty
  · by_cases hsize : n = g.size
    · rw [hsize, hnew]
      exact fits_of_bound?_eq_none hkind
    · rw [hbeyond n hn hsize]
      exact fits_of_bound?_eq_none rfl

theorem Seeded.fits (hs : g.Seeded repo c n) (hc : (g.node n).kind = .bound c) :
    (g.ownShape n).Fits repo := by
  intro c' hc' x hx
  obtain rfl : c = c' := PatternKind.bound.inj (hc.symm.trans hc')
  obtain ⟨references, hrefs, -, hlabels⟩ := hs
  exact (Repository.mem_labels_iff hrefs).1 (hlabels x (contains_ownShape.1 hx))

theorem normal_of_fits {s : Shape} (h : s.Fits repo) (hc : s.kind = .bound c) :
    s.Normal repo := by
  intro x hx
  rw [hc]
  exact Shape.memberLabel_of_reference (h c hc x hx)

/-- The patterns of a code and of what it refers to. -/
theorem Settled.binds (hrepo : repo.AliasesKnown) (h : g.Settled repo pending)
    (hb : Build.Binds repo name g id g') : g'.Settled repo pending := by
  have hg := h.formed
  have hseeded (c : String) (id : Nat) (hid : g'.bound.get? c = some id) : g'.Seeded repo c id := by
    rcases hb.seeded c id hid with hold | hs
    · exact (h.seeded c id hold).grows (lt_size_of_kind (hg.codes c id hold)) hb.grows
    · exact hs
  -- A new node is recorded for a code.
  have hfresh (n : Nat) (hn : g.size ≤ n) : (g'.ownShape n).Fits repo ∧
      ((g'.ownShape n).kind.bound? = none → g'.ownShape n = ⟨.unconstrained, ∅⟩) := by
    by_cases hlt : n < g'.size
    · obtain ⟨c, hc⟩ := hb.grows.fresh n hn hlt
      have hkind := hb.formed.codes c n hc
      refine ⟨(hseeded c n hc).fits hkind, fun hnone => ?_⟩
      rw [ownShape, hkind] at hnone
      cases hnone
    · rw [ownShape_of_size_le hb.formed (Nat.le_of_not_lt hlt)]
      exact ⟨fits_of_bound?_eq_none rfl, fun _ => rfl⟩
  refine h.extend hb.formed hb.grows.size_le hb.grows.node hb.grows.parent? hb.grows.ownEdges
    (fun c hc => ?_) hseeded (fun n hn => ?_) fun n hn => (hfresh n hn).1
  · rcases hb.grows.known c hc with hc | ⟨name, hname⟩
    · exact h.known c hc
    · exact hrepo.known hname
  · cases hk : (g'.ownShape n).kind with
    | bound c => exact normal_of_fits (hfresh n hn).1 hk
    | _ =>
      rw [(hfresh n hn).2 (by rw [hk]; rfl)]
      exact normal_empty

end Extending

section Edges

variable {source target : Nat}

theorem Formed.ownShape_withEdge (hg : g.Formed) (hsource : source < g.size) (i : Nat) :
    (g.withEdge (g.find source) label target).ownShape i =
      if i = g.find source then ⟨(g.ownShape i).kind, (g.ownShape i).labels.insert label⟩
      else g.ownShape i := by
  rw [ownShape, node_withEdge, ownEdges_withEdge (hg.edges_size ▸ hg.find_lt hsource)]
  split_ifs
  · rw [NameMap.map_insert]
    rfl
  · rfl

/-- A class that may gain an edge is not a code. -/
theorem kind_ne_bound (hopen : (g.kind source).isOpen ∨ g.kind source = .vector) (c : String) :
    g.kind source ≠ .bound c := by
  intro hkind
  simp [hkind, PatternKind.isOpen] at hopen

section NewEdge
variable (h : g.Settled repo pending) (hsource : source < g.size)
  (hlabel : (g.kind source).memberLabel repo label = label)
include h hsource hlabel

theorem Settled.normal_withEdge (n : Nat) :
    ((g.withEdge (g.find source) label target).ownShape n).Normal repo := by
  rw [h.formed.ownShape_withEdge hsource]
  split_ifs with hn
  · subst hn
    intro x hx
    rcases (NameMap.contains_insert _ _ _).1 hx with rfl | hx
    · exact hlabel
    · exact h.normal _ x hx
  · exact h.normal n

theorem Settled.above_withEdge (hopen : (g.kind source).isOpen ∨ g.kind source = .vector)
    (n : Nat) : ((g.withEdge (g.find source) label target).ownShape n).Below repo
      ((g.withEdge (g.find source) label target).shape n) := by
  have hown (i : Nat) : (g.withEdge (g.find source) label target).ownShape i = _ :=
    h.formed.ownShape_withEdge hsource i
  rw [shape_eq_ownShape, find_withEdge]
  by_cases hn : n = g.find source
  · rw [hn, h.formed.find_find]
    exact .refl (h.normal_withEdge hsource hlabel _)
  · rw [hown, hown, if_neg hn]
    split_ifs with hfind
    · have hgains := Shape.below_insert (h.normal (g.find source)) hopen label
      rw [← hfind] at hgains
      exact (h.above n).trans hgains
    · exact h.above n

/-- The new edge is not under a label that an edge of the class has. -/
theorem Settled.kept_withEdge (habsent : (g.edgesOf source).get? label = none) (n : Nat)
    (l : String) (d : Nat)
    (hd : ((g.withEdge (g.find source) label target).ownEdges n).get? l = some d) :
    ∃ d', ((g.withEdge (g.find source) label target).edgesOf n).get?
      ((g.kind n).memberLabel repo l) = some d' ∧ g.Linked pending d d' := by
  have hg := h.formed
  have hget (i : Nat) (l : String) :
      ((g.withEdge (g.find source) label target).ownEdges i).get? l = _ :=
    get?_withEdge (hg.edges_size ▸ hg.find_lt hsource) i l
  rw [edgesOf, find_withEdge]
  rw [hget] at hd ⊢
  split_ifs at hd with hn
  · obtain ⟨rfl, rfl⟩ := hn
    obtain rfl := Option.some.inj hd
    refine ⟨target, ?_, .refl _⟩
    rw [hg.kind_find, hlabel, if_pos ⟨hg.find_find source, rfl⟩]
  · obtain ⟨d', hd', hlinked⟩ := h.kept n l d hd
    have hold : ¬(g.find n = g.find source ∧ (g.kind n).memberLabel repo l = label) := by
      rintro ⟨hfind, hl⟩
      rw [hl, edgesOf, hfind] at hd'
      cases habsent.symm.trans hd'
    rw [if_neg hold]
    exact ⟨d', hd', hlinked⟩

/-- A new edge of a class that may gain one. -/
theorem Settled.withEdge (htarget : target < g.size)
    (hopen : (g.kind source).isOpen ∨ g.kind source = .vector)
    (habsent : (g.edgesOf source).get? label = none) :
    (g.withEdge (g.find source) label target).Settled repo pending where
  ready := ⟨h.formed.withEdge (h.formed.find_lt hsource) htarget, h.ready.pending_lt⟩
  known := h.known
  seeded c id hid := by
    have hne : id ≠ g.find source := by
      rintro rfl
      exact kind_ne_bound hopen c (h.formed.codes c _ hid)
    refine (h.seeded c id hid).of_ownEdges_eq (fun _ _ h => h) ?_
    rw [ownEdges_withEdge (h.formed.edges_size ▸ h.formed.find_lt hsource), if_neg hne]
  normal := h.normal_withEdge hsource hlabel
  fits n := by
    rw [h.formed.ownShape_withEdge hsource]
    split_ifs with hn
    · subst hn
      exact fun c hc => absurd hc (kind_ne_bound hopen c)
    · exact h.fits n
  above := h.above_withEdge hsource hlabel hopen
  kept := h.kept_withEdge hsource hlabel habsent

end NewEdge

theorem Settled.addsEdge {changed : Bool} (h : g.Settled repo pending)
    (hsource : source < g.size) (htarget : target < g.size)
    (hadds : Build.AddsEdge repo rule source label target g changed g') :
    g'.Settled repo pending := by
  cases hadds with
  | merge hpresent hmerges =>
    have hlt := h.formed.targets_lt _ _ _ hpresent
    exact h.merges (by simp [hlt, htarget]) hmerges
  | gain habsent hopen =>
    exact h.withEdge hsource PatternKind.memberLabel_idem htarget hopen habsent

end Edges

end PatternGraph

open PatternGraph in
/-- Nodes that are merged are of one class. -/
theorem Build.Merges.find_eq {repo : Repository} {rule : String} {ids : List Nat} {changed : Bool}
    {g g' : PatternGraph} {a b : Nat} (hm : Merges repo rule ids g changed g') (hg : g.Formed)
    (hids : ∀ id ∈ ids, id < g.size) (ha : a ∈ ids) (hb : b ∈ ids) : g'.find a = g'.find b := by
  have hpending : Linked g [ids] a b := .rel _ _ (.inr ⟨ids, List.mem_cons_self, ha, hb⟩)
  exact linked_nil_iff.1 (hpending.mergeRun (ready_singleton hg hids) (hm.run []))

end StructuralTyping
