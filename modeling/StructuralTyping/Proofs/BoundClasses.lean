import StructuralTyping.Proofs.RegistrationHistory
import StructuralTyping.Proofs.SettledGraph

/-!
# Classes that are codes

A graph is built from the empty one by adding patterns, asking for the patterns of codes, merging
classes and adding edges. In every graph that is built so, a class that is a code mirrors the code:
there is no other class for it, its labels are those of the code, and it leads to the classes of
what the code refers to.
-/
namespace StructuralTyping

/-- Calls that declare no code under a builtin name lead to the repository. -/
def Repository.Reachable (repo : Repository) : Prop :=
  ∃ calls : List Repository.Call, (∀ call ∈ calls, call.Admissible) ∧
    calls.foldl Repository.after .initial = repo

theorem Repository.Reachable.consistent {repo : Repository} (h : repo.Reachable) :
    repo.Consistent := by
  obtain ⟨calls, hcalls, rfl⟩ := h
  exact initial_consistent.foldl_after hcalls

namespace PatternGraph
variable {repo : Repository} {g : PatternGraph} {c l : String} {root t : Nat}

/-- The graphs that successful operations lead to. -/
inductive Built (repo : Repository) : PatternGraph → Prop
  | empty : Built repo {}
  | addNode {g g' : PatternGraph} {kind : PatternKind} {edges : NameMap Nat} {id : Nat}
      (hg : Built repo g) (hkind : kind.bound? = none)
      (hedges : ∀ l d, edges.get? l = some d → d < g.size)
      (hvector : kind = .vector → ∀ l, edges.contains l → l = Text.vectorMember)
      (hok : Build.addNode kind edges g = .ok id g') : Built repo g'
  | boundNode {g g' : PatternGraph} {name : String} {id : Nat} (hg : Built repo g)
      (hok : Build.boundNode repo name g = .ok id g') : Built repo g'
  | unify {g g' : PatternGraph} {rule : String} {ids : List Nat} {changed : Bool}
      (hg : Built repo g) (hids : ∀ id ∈ ids, id < g.size)
      (hok : Build.unify repo rule ids g = .ok changed g') : Built repo g'
  | addEdge {g g' : PatternGraph} {rule label : String} {source target : Nat} {changed : Bool}
      (hg : Built repo g) (hsource : source < g.size) (htarget : target < g.size)
      (hok : Build.addEdge repo rule source label target g = .ok changed g') : Built repo g'

theorem memberLabel_of_vector {kind : PatternKind} {edges : NameMap Nat}
    (hkind : kind.bound? = none)
    (hvector : kind = .vector → ∀ l, edges.contains l → l = Text.vectorMember)
    (hl : edges.contains l) : kind.memberLabel repo l = l := by
  cases kind with
  | vector => rw [hvector rfl l hl]; rfl
  | bound c => cases hkind
  | _ => rfl

/-- A new pattern, with its edges listed. -/
theorem Built.pushNode {kind : PatternKind} {edges : NameMap Nat} (h : Built repo g)
    (hkind : kind.bound? = none) (hedges : ∀ e ∈ edges.entries, e.2 < g.size)
    (hvector : kind = .vector → ∀ e ∈ edges.entries, e.1 = Text.vectorMember) :
    Built repo (g.pushNode kind edges).2 := by
  refine h.addNode hkind (fun l d hd => hedges (l, d) (NameMap.get?_eq_some_iff.1 hd))
    (fun hv l hl => ?_) rfl
  obtain ⟨d, hd⟩ := NameMap.contains_iff.1 hl
  exact hvector hv (l, d) (NameMap.get?_eq_some_iff.1 hd)

/-- Every graph that is built is settled. -/
theorem Built.settled (hrepo : repo.Consistent) (h : Built repo g) : g.Settled repo [] := by
  induction h with
  | empty => exact settled_empty
  | addNode hg hkind hedges hvector hok ih =>
    cases hok
    exact ih.pushNode hkind hedges fun l hl => memberLabel_of_vector hkind hvector hl
  | boundNode hg hok ih =>
    exact ih.binds hrepo.aliasesKnown ((Build.boundNode_outcome ih.formed).of_ok hok)
  | unify hg hids hok ih => exact ih.merges hids ((Build.unify_outcome ih.formed hids).of_ok hok)
  | addEdge hg hsource htarget hok ih =>
    exact ih.addsEdge hsource htarget ((Build.addEdge_outcome ih.formed htarget).of_ok hok)

section Vectors
variable {g' : PatternGraph}

/-- Vectors have no other label than that of their members. -/
def Plain (g : PatternGraph) : Prop := ∀ n, (g.ownShape n).PlainVector

theorem plain_of_kind_ne {s : Shape} (h : s.kind ≠ .vector) : s.PlainVector := fun hs => (h hs).elim

theorem Plain.pushNode {kind : PatternKind} {edges : NameMap Nat} (h : g.Plain) (hg : g.Formed)
    (hvector : kind = .vector → ∀ l, edges.contains l → l = Text.vectorMember) :
    (g.pushNode kind edges).2.Plain := by
  intro n
  rw [ownShape, node_pushNode, ownEdges_pushNode hg.edges_size]
  split_ifs
  · exact fun hkind l hl => hvector hkind l (NameMap.contains_map.1 hl)
  · exact h n

theorem Plain.binds {name : String} {id : Nat} (h : g.Plain)
    (hb : Build.Binds repo name g id g') : g'.Plain := by
  intro n
  by_cases hold : n < g.size
  · rw [ownShape, hb.grows.node n hold, hb.grows.ownEdges n hold]
    exact h n
  · apply plain_of_kind_ne
    by_cases hnew : n < g'.size
    · obtain ⟨c, hc⟩ := hb.grows.fresh n (Nat.le_of_not_lt hold) hnew
      rw [ownShape, hb.formed.codes c n hc]
      simp
    · rw [ownShape_of_size_le hb.formed (Nat.le_of_not_lt hnew)]
      simp

theorem Plain.mergeStep {rule : String} {s t : PatternGraph × List (List Nat)} (h : s.1.Plain)
    (hs : Ready s) (hstep : MergeStep repo rule s t) : t.1.Plain := by
  cases hstep with
  | same => exact h
  | join hroots hseveral hjoin hconflict =>
    have hare := hs.formed.areRoots_of_eq hs.head_lt hroots
    intro n
    rw [ownShape_joinRoots hs.formed hare hjoin]
    split_ifs
    · refine hjoin.plain fun part hpart => ?_
      obtain ⟨r, -, rfl⟩ := List.mem_map.1 hpart
      exact h _
    · exact h n

theorem Plain.merges {rule : String} {ids : List Nat} {changed : Bool} (h : g.Plain)
    (hg : g.Formed) (hids : ∀ id ∈ ids, id < g.size)
    (hm : Build.Merges repo rule ids g changed g') : g'.Plain := by
  have hready := ready_singleton hg hids
  have hall {t : PatternGraph × List (List Nat)} (hrun : MergeRun repo rule (g, [ids]) t) :
      t.1.Plain := by
    induction hrun with
    | refl => exact h
    | tail hrun hstep ih => exact ih.mergeStep (MergeRun.ready hrun hready) hstep
  exact hall (hm.run [])

theorem Plain.addsEdge {rule label : String} {source target : Nat} {changed : Bool}
    (h : g.Plain) (hg : g.Formed) (hsource : source < g.size) (htarget : target < g.size)
    (hadds : Build.AddsEdge repo rule source label target g changed g') : g'.Plain := by
  cases hadds with
  | merge hpresent hmerges =>
    have hlt := hg.targets_lt _ _ _ hpresent
    exact h.merges hg (by simp [hlt, htarget]) hmerges
  | gain habsent hopen hmember =>
    intro n
    rw [hg.ownShape_withEdge hsource]
    split_ifs with hn
    · subst hn
      intro hkind l hl
      rcases (NameMap.contains_insert _ _ _).1 hl with rfl | hl
      · exact hmember hkind
      · exact h _ hkind l hl
    · exact h n

/-- Vectors of graphs that are built have no other label than that of their members. -/
theorem Built.plain (hrepo : repo.Consistent) (h : Built repo g) : g.Plain := by
  induction h with
  | empty => exact fun n => plain_of_kind_ne (by simp [ownShape, node, PatternForest.node])
  | addNode hg hkind hedges hvector hok ih =>
    cases hok
    exact ih.pushNode (hg.settled hrepo).formed hvector
  | boundNode hg hok ih =>
    exact ih.binds ((Build.boundNode_outcome (hg.settled hrepo).formed).of_ok hok)
  | unify hg hids hok ih =>
    have hformed := (hg.settled hrepo).formed
    exact ih.merges hformed hids ((Build.unify_outcome hformed hids).of_ok hok)
  | addEdge hg hsource htarget hok ih =>
    have hformed := (hg.settled hrepo).formed
    exact ih.addsEdge hformed hsource htarget ((Build.addEdge_outcome hformed htarget).of_ok hok)

end Vectors

section Codes
variable (h : g.Settled repo [])
include h

/-- A node whose class is a code. -/
theorem Settled.mem_roots_iff_recorded : root ∈ g.roots ∧ g.kind root = .bound c ↔
    ∃ id, g.bound.get? c = some id ∧ g.find id = root := by
  have hg := h.formed
  rw [mem_roots_iff]
  constructor
  · rintro ⟨⟨-, hroot⟩, hkind⟩
    rw [kind_of_root hroot] at hkind
    obtain ⟨id, hid⟩ := NameMap.contains_iff.1 (hg.recorded root c hkind)
    exact ⟨id, hid, hg.find_recorded hid hroot hkind⟩
  · rintro ⟨id, hid, rfl⟩
    have hkind := hg.codes c id hid
    refine ⟨⟨hg.find_lt (lt_size_of_kind hkind), hg.ordered.parent?_find id⟩, ?_⟩
    rw [hg.kind_find]
    exact hg.kind_of_bound hkind

variable (hroot : root ∈ g.roots) (hkind : g.kind root = .bound c)
include hroot hkind

/-- What the name that a code refers to stands for is where the class of the code leads to. -/
theorem Settled.exists_target? {r : String} (hr : repo.reference? c l = some r) :
    ∃ r', repo.canonical r = some r' ∧
      ∃ t, g.target? root l = some t ∧ t ∈ g.roots ∧ g.kind t = .bound r' := by
  have hg := h.formed
  obtain ⟨id, hid, hfind⟩ := h.mem_roots_iff_recorded.1 ⟨hroot, hkind⟩
  obtain ⟨references, hrefs, hedges, -⟩ := h.seeded c id hid
  obtain ⟨r', d, hr', hd, hget⟩ := hedges (l, r) ((Repository.mem_references_iff hrefs).2 hr)
  -- The edge of the recorded node is kept at its root.
  obtain ⟨d', hd', hlinked⟩ := h.kept id l d hget
  have hlabel : (g.kind id).memberLabel repo l = l := by
    rw [hg.kind_of_bound (hg.codes c id hid)]
    exact Shape.memberLabel_of_reference (by simp [hr])
  rw [hlabel, ← hg.edgesOf_find, hfind] at hd'
  have hclass := h.mem_roots_iff_recorded.2 ⟨d, hd, linked_nil_iff.1 hlinked⟩
  exact ⟨r', hr', g.find d', by rw [target?, hd']; rfl, hclass⟩

variable (hrepo : repo.Consistent)
include hrepo

/-- What a code refers to is where its class leads to. -/
theorem Settled.target?_of_reference? {r : String} (hr : repo.reference? c l = some r) :
    ∃ t, g.target? root l = some t ∧ t ∈ g.roots ∧ g.kind t = .bound r := by
  obtain ⟨id, hid, -⟩ := h.mem_roots_iff_recorded.1 ⟨hroot, hkind⟩
  have hknown := hrepo.reference_known (h.known c (NameMap.contains_of_get? hid)) hr
  obtain ⟨r', hr', htarget⟩ := h.exists_target? hroot hkind hr
  obtain rfl : r = r' := Option.some.inj (hknown.canonical.symm.trans hr')
  exact htarget

theorem Settled.contains_label_iff :
    (g.edgesOf root).contains l ↔ (repo.reference? c l).isSome := by
  constructor
  · intro hl
    exact h.fits (g.find root) c hkind l (contains_ownShape.2 hl)
  · intro hl
    obtain ⟨r, hr⟩ := Option.isSome_iff_exists.1 hl
    obtain ⟨t, ht, -⟩ := h.target?_of_reference? hroot hkind hrepo hr
    obtain ⟨d, hd, -⟩ := Option.map_eq_some_iff.1 ht
    exact NameMap.contains_of_get? hd

end Codes

/-- The class of a code, if there is one, mirrors the code. -/
structure Mirrors (repo : Repository) (g : PatternGraph) (c : String) : Prop where
  /-- The class is that of the node recorded for the code. -/
  recorded : ∀ root, root ∈ g.roots ∧ g.kind root = .bound c ↔
    ∃ id, g.bound.get? c = some id ∧ g.find id = root
  unique : ∀ root ∈ g.roots, ∀ other ∈ g.roots,
    g.kind root = .bound c → g.kind other = .bound c → root = other
  labels : ∀ root ∈ g.roots, g.kind root = .bound c →
    ∀ l, (g.edgesOf root).contains l ↔ (repo.reference? c l).isSome
  targets : ∀ root ∈ g.roots, g.kind root = .bound c → ∀ l t, g.target? root l = some t →
    t ∈ g.roots ∧ ∃ r, repo.reference? c l = some r ∧ g.kind t = .bound r

/-- A class that is a code is the only one for the code, has the labels of the code and leads to the
classes of what the code refers to. -/
theorem Built.mirrors (hrepo : repo.Reachable) (hg : Built repo g) (c : String) :
    Mirrors repo g c := by
  have h := hg.settled hrepo.consistent
  constructor
  case recorded => exact fun root => h.mem_roots_iff_recorded
  case unique =>
    intro root hroot other hother hkind hkind'
    obtain ⟨id, hid, hfind⟩ := h.mem_roots_iff_recorded.1 ⟨hroot, hkind⟩
    obtain ⟨id', hid', hfind'⟩ := h.mem_roots_iff_recorded.1 ⟨hother, hkind'⟩
    obtain rfl : id = id' := Option.some.inj (hid.symm.trans hid')
    rw [← hfind, ← hfind']
  case labels => exact fun root hroot hkind l => h.contains_label_iff hroot hkind hrepo.consistent
  case targets =>
    intro root hroot hkind l t ht
    have hl : (g.edgesOf root).contains l := by
      obtain ⟨d, hd, -⟩ := Option.map_eq_some_iff.1 ht
      exact NameMap.contains_of_get? hd
    rw [h.contains_label_iff hroot hkind hrepo.consistent] at hl
    obtain ⟨r, hr⟩ := Option.isSome_iff_exists.1 hl
    obtain ⟨t', ht', hin, hkind'⟩ := h.target?_of_reference? hroot hkind hrepo.consistent hr
    obtain rfl : t = t' := Option.some.inj (ht.symm.trans ht')
    exact ⟨hin, r, hr, hkind'⟩

end PatternGraph

/-- The repository once a stream of integers is registered. -/
def Repository.ofStream : Repository :=
  ⟨streamEntries, initial.aliases.union loopedRegistration.names⟩

theorem Repository.after_loopedStream :
    [Call.registerCodes Codes.loopedStream].foldl Repository.after .initial = .ofStream := by
  cases registers_looped with
  | registerCodes _ hok =>
    change (initial.registerCodes Codes.loopedStream).2 = ofStream
    rw [hok]
    rfl

theorem Repository.ofStream_reachable : Repository.ofStream.Reachable := by
  refine ⟨[.registerCodes Codes.loopedStream], ?_, after_loopedStream⟩
  rintro _ hcall
  obtain rfl := List.mem_singleton.1 hcall
  exact Codes.WellFormed.names (by decide)

namespace PatternGraph

/-- The pattern of a stream. -/
def stream : PatternGraph where
  forest := ⟨#[⟨.bound "rArHSMQzZK", none⟩, ⟨.bound "@int", none⟩], #[none, none]⟩
  edges := #[.ofList [("head", 1), ("tail", 0)], ∅]
  bound := .ofList [("rArHSMQzZK", 0), ("@int", 1)]

/-- The pattern of a stream, and a pattern of something with a tail. -/
def streams : PatternGraph :=
  ((stream.pushNode .unconstrained ∅).2.pushNode .openProduct (.ofList [("tail", 2)])).2

/-- The two patterns in one class: the tail is of that class, too. -/
def mergedStreams : PatternGraph where
  forest :=
    { nodes := streams.forest.nodes ++
        #[⟨.bound "rArHSMQzZK", some "merge"⟩, ⟨.bound "rArHSMQzZK", some "merge"⟩]
      parents := #[some 4, none, some 5, some 4, some 5, none] }
  edges := streams.edges ++
    #[.ofList [("head", 1), ("tail", 0)], .ofList [("head", 1), ("tail", 0)]]
  bound := streams.bound

theorem stream_built : Built .ofStream stream :=
  Built.empty.boundNode (show Build.boundNode .ofStream "S" {} = .ok 0 stream by decide +kernel)

theorem streams_built : Built .ofStream streams :=
  (stream_built.pushNode rfl (by decide) (by decide)).pushNode rfl (by decide) (by decide)

theorem unify_streams : Build.unify .ofStream "merge" [0, 3] streams = .ok true mergedStreams := by
  decide +kernel

theorem mergedStreams_built : Built .ofStream mergedStreams :=
  streams_built.unify (by decide) unify_streams

theorem Built.mirrors_mergedStreams : Repository.ofStream.Reachable ∧
    Built .ofStream mergedStreams ∧ 5 ∈ mergedStreams.roots ∧
    mergedStreams.kind 5 = .bound "rArHSMQzZK" ∧ Mirrors .ofStream mergedStreams "rArHSMQzZK" :=
  ⟨Repository.ofStream_reachable, mergedStreams_built, by decide +kernel, by decide +kernel,
    Built.mirrors Repository.ofStream_reachable mergedStreams_built "rArHSMQzZK"⟩

end PatternGraph

end StructuralTyping
