import StructuralTyping.Proofs.BoundClasses
import StructuralTyping.Proofs.GraphEvolution
import StructuralTyping.Proofs.TypedClasses

/-!
# Patterns only gain information

A call that merges classes fails where two shapes do not go together, and leaves the graph as it is
by then: some classes are merged, and others, which edges of theirs lead to under one label, are
not. Later calls go on with such a graph. It is settled up to the merges that were given up, and
that is enough for classes to keep what they say: whatever calls follow, successful or not, kinds
never go down in rank, labels stay, and a product that is closed has the same labels for good. Main
statement: `LeadsTo.gains`.
-/
namespace StructuralTyping

namespace Build
variable {α : Type} {m : Build α} {g : PatternGraph}

/-- The graph that an operation leaves, be it with an answer or with an error. -/
def left (m : Build α) (g : PatternGraph) : PatternGraph :=
  match m g with
  | .ok _ g' | .error _ g' => g'

theorem Outcome.left {ok : α → PatternGraph → Prop} {fail : PatternError → PatternGraph → Prop}
    {P : PatternGraph → Prop} (h : Outcome m g ok fail) (hok : ∀ a g', ok a g' → P g')
    (hfail : ∀ e g', fail e g' → P g') : P (Build.left m g) := by
  unfold Build.left
  cases hm : m g with
  | ok a g' => exact hok a g' (h.of_ok hm)
  | error e g' => exact hfail e g' (h.of_error hm)

theorem boundNode_of_canonical_eq_none {repo : Repository} {name : String}
    (hname : repo.canonical name = none) (g : PatternGraph) :
    boundNode repo name g = .error (.code (.unknownCode name none)) g := by
  rw [boundNode, bindCode, hname]
  rfl

end Build

namespace PatternGraph
variable {repo : Repository} {g g' : PatternGraph} {kind : PatternKind} {rule label name : String}
  {ids : List Nat} {pending pending' : List (List Nat)} {source target n : Nat} {e : PatternError}

/-- A call of one of the operations on graphs. -/
inductive Call
  | addNode (kind : PatternKind) (edges : NameMap Nat)
  | boundNode (name : String)
  | unify (rule : String) (ids : List Nat)
  | addEdge (rule : String) (source : Nat) (label : String) (target : Nat)

/-- New nodes are not codes, vectors have members only, and nodes that are spoken of are there. -/
def Call.Admissible (g : PatternGraph) : Call → Prop
  | addNode kind edges => kind.bound? = none ∧ (∀ d ∈ edges.values, d < g.size) ∧
      (kind = .vector → ∀ l ∈ edges.keys, l = Text.vectorMember)
  | boundNode _ => True
  | unify _ ids => ∀ id ∈ ids, id < g.size
  | addEdge _ source _ target => source < g.size ∧ target < g.size

instance (g : PatternGraph) : (call : Call) → Decidable (call.Admissible g)
  | .addNode _ _ => inferInstanceAs (Decidable (_ ∧ _ ∧ _))
  | .boundNode _ => inferInstanceAs (Decidable True)
  | .unify _ ids => inferInstanceAs (Decidable (∀ id ∈ ids, id < g.size))
  | .addEdge _ _ _ _ => inferInstanceAs (Decidable (_ ∧ _))

/-- The graph after a call, whether it succeeds or fails. -/
def after (repo : Repository) (g : PatternGraph) : Call → PatternGraph
  | .addNode kind edges => Build.left (Build.addNode kind edges) g
  | .boundNode name => Build.left (Build.boundNode repo name) g
  | .unify rule ids => Build.left (Build.unify repo rule ids) g
  | .addEdge rule source label target => Build.left (Build.addEdge repo rule source label target) g

/-- Any number of calls leads from one graph to another. -/
abbrev LeadsTo (repo : Repository) : PatternGraph → PatternGraph → Prop :=
  Relation.ReflTransGen fun g g' => ∃ call : Call, call.Admissible g ∧ g.after repo call = g'

section Merging

/-- If all codes are known, roots can be put below a root of their joined shape. -/
theorem Formed.joinable {roots : List Nat} {joined : Shape} (hg : g.Formed)
    (hknown : ∀ c, g.bound.contains c → repo.Known c) (hroots : g.AreRoots roots)
    (hjoin : Shape.IsJoin repo (roots.map g.shape) joined) :
    Joinable repo g joined.kind roots := by
  refine ⟨conflict_eq_none_of_isJoin hroots hjoin, fun c hc => ?_⟩
  obtain ⟨r, -, hr⟩ := exists_bound_of_isJoin hjoin hroots hc
  exact (hknown c (hg.recorded r c hr)).canonical

/-- Merging fails for two shapes that do not go together only, and leaves what was merged. -/
theorem Fails.exists_mergeRun (hfails : Fails repo rule (g, pending) e g')
    (hready : Ready (g, pending)) (hknown : ∀ c, g.bound.contains c → repo.Known c) :
    (∃ l r : Shape, e = .structuralMismatch rule l.text r.text none) ∧
      ∃ pending', MergeRun repo rule (g, pending) (g', pending') := by
  obtain ⟨g₁, ids, rest, hrun, hrefused⟩ := hfails
  have h₁ := MergeRun.ready hrun hready
  have hbound : g₁.bound = g.bound := MergeRun.bound_eq hrun
  cases hrefused with
  | shapes hroots hshapes => exact ⟨⟨_, _, rfl⟩, _, hrun⟩
  | codes hroots hjoined hcodes =>
    -- a joined shape that is a code has it from one of the roots, which is recorded under its name
    have hare := h₁.formed.areRoots_of_eq h₁.head_lt hroots.symm
    have hjoin := isJoin_of_mergeShapes hjoined
    exact (hcodes (h₁.formed.joinable (hbound ▸ hknown) hare hjoin)).elim

end Merging

section Calls

/-- A graph continues another if it takes nothing back and is settled up to what is still to be
merged. -/
structure Continues (repo : Repository) (g g' : PatternGraph) : Prop where
  extension : g.Extends g'
  settled : ∃ pending, g'.Settled repo pending

theorem Settled.continues (h : g.Settled repo pending) : Continues repo g g :=
  ⟨.refl g, pending, h⟩

theorem Continues.trans {h : PatternGraph} (hg : Continues repo g h) (hh : Continues repo h g') :
    Continues repo g g' := ⟨hg.extension.trans hh.extension, hh.settled⟩

theorem Settled.continues_of_mergeRun (h : g.Settled repo pending)
    (hrun : MergeRun repo rule (g, pending) (g', pending')) : Continues repo g g' :=
  ⟨extends_of_mergeRun h.ready hrun, pending', h.mergeRun hrun⟩

variable (h : g.Settled repo pending)
include h

theorem Settled.continues_of_fails (hids : ∀ id ∈ ids, id < g.size)
    (hfails : ∀ rest, Fails repo rule (g, ids :: rest) e g') : Continues repo g g' := by
  obtain ⟨-, pending', hrun⟩ := (hfails pending).exists_mergeRun (h.cons hids).ready h.known
  exact (h.cons hids).continues_of_mergeRun hrun

theorem Settled.continues_of_merges {changed : Bool} (hids : ∀ id ∈ ids, id < g.size)
    (hm : Build.Merges repo rule ids g changed g') : Continues repo g g' :=
  (h.cons hids).continues_of_mergeRun (hm.run pending)

/-- A name that is not known leaves the graph as it is, and others are bound without fail. -/
theorem Settled.continues_boundNode (hrepo : repo.Consistent) (name : String) :
    Continues repo g (Build.left (Build.boundNode repo name) g) := by
  cases hname : repo.canonical name with
  | none =>
    rw [Build.left, Build.boundNode_of_canonical_eq_none hname]
    exact h.continues
  | some c =>
    have hc := hrepo.aliasesKnown.known hname
    rw [Build.boundNode_of_canonical hc hname]
    refine (Build.boundNode_outcome_of_known hrepo hc h.formed).left (fun id g' hb => ?_)
      fun _ _ hfalse => hfalse.elim
    exact ⟨h.formed.extends_of_binds hb, pending, h.binds hrepo.aliasesKnown hb⟩

theorem Settled.continues_addEdge (hsource : source < g.size) (htarget : target < g.size)
    (rule label : String) :
    Continues repo g (Build.left (Build.addEdge repo rule source label target) g) := by
  refine (Build.addEdge_adds_or_refuses h.formed htarget).left (fun _ g' hadds => ?_)
    fun _ g' hrefuses => ?_
  · refine ⟨?_, pending, h.addsEdge hsource htarget hadds⟩
    exact (Operation.edge hsource htarget hadds).extends h.formed
  · cases hrefuses with
    | merge hpresent hfails =>
      have hlt := h.formed.targets_lt _ _ _ hpresent
      exact h.continues_of_fails (by simp [hlt, htarget]) hfails
    | closed => exact h.continues

/-- A call takes nothing back, also if it fails. -/
theorem Settled.continues_after (hrepo : repo.Consistent) {call : Call}
    (hcall : call.Admissible g) : Continues repo g (g.after repo call) := by
  cases call with
  | addNode kind edges =>
    obtain ⟨hkind, hedges, hvector⟩ := hcall
    refine ⟨h.formed.extends_pushNode kind edges, pending, h.pushNode hkind (fun l d hd => ?_)
      fun l hl => ?_⟩
    · exact hedges d (List.mem_map.2 ⟨(l, d), NameMap.get?_eq_some_iff.1 hd, rfl⟩)
    · exact memberLabel_of_vector hkind
        (fun hv l hl => hvector hv l (NameMap.mem_keys_iff.2 hl)) hl
  | boundNode name => exact h.continues_boundNode hrepo name
  | unify rule ids =>
    exact (Build.unify_merges_or_fails h.formed hcall).left
      (fun _ _ hmerges => h.continues_of_merges hcall hmerges)
      fun _ _ hfails => h.continues_of_fails hcall hfails
  | addEdge rule source label target => exact h.continues_addEdge hcall.1 hcall.2 rule label

theorem LeadsTo.continues (hrepo : repo.Consistent) (hrun : LeadsTo repo g g') :
    Continues repo g g' := by
  induction hrun with
  | refl => exact h.continues
  | tail _ hcall ih =>
    obtain ⟨call, hadmissible, rfl⟩ := hcall
    obtain ⟨pending, hsettled⟩ := ih.settled
    exact ih.trans (hsettled.continues_after hrepo hadmissible)

end Calls

section Shapes

/-- What a class says is said by it in each settled graph that takes nothing back. -/
theorem Settled.shape_below (h : g.Settled repo pending) (h' : g'.Settled repo pending')
    (hext : g.Extends g') (hn : n < g.size) : (g.shape n).Below repo (g'.shape n) := by
  have hroot : g'.shape (g.find n) = g'.shape n := by
    have hfind := hext.find _ _ (h.formed.find_find n)
    rw [shape, kind_congr hfind, edgesOf_congr hfind, ← shape]
  -- the root said what the class said, and its class in the later graph says no less
  rw [← hroot, shape_eq_ownShape]
  exact hext.below_shape h' (h.formed.find_lt hn) (h.normal _)

end Shapes

/-- What the class of a node has gained from one graph to another, and what it has kept. -/
structure Gains (repo : Repository) (g g' : PatternGraph) (id : Nat) : Prop where
  id_lt : id < g'.size
  rank : (g.kind id).rank ≤ (g'.kind id).rank
  bound : ∀ c, g.kind id = .bound c → g'.kind id = .bound c
  labels : ∀ l, (g.shape id).labels.contains l →
    (g'.shape id).labels.contains ((g'.kind id).memberLabel repo l)
  product : g.kind id = .closedProduct → (g'.shape id).labels = (g.shape id).labels

/-- Patterns only gain information, whatever is done to a graph, and whether or not it fails. -/
theorem LeadsTo.gains (hrepo : repo.Reachable) (hg : LeadsTo repo {} g) (hg' : LeadsTo repo g g')
    {id : Nat} (hid : id < g.size) : Gains repo g g' id := by
  obtain ⟨pending, h⟩ := (hg.continues settled_empty hrepo.consistent).settled
  obtain ⟨hext, pending', h'⟩ := hg'.continues h hrepo.consistent
  have hbelow := h.shape_below h' hext hid
  constructor
  case id_lt => exact hid.trans_le hext.size_le
  case rank => exact hbelow.rank
  case bound =>
    intro c hc
    have hkeeps := hbelow.keeps
    rwa [Shape.Keeps, show (g.shape id).kind = .bound c from hc] at hkeeps
  case labels => exact hbelow.labels
  case product => exact hbelow.labels_eq (h'.fits _)

/-- The pattern of a stream, and a product whose head is a union. -/
def headedStreams : PatternGraph :=
  ((stream.pushNode .closedUnion ∅).2.pushNode .closedProduct
    (.ofList [("head", 2), ("tail", 0)])).2

/-- Merging the two has made the product a stream and has stopped at the heads. -/
def halfMergedStreams : PatternGraph where
  forest :=
    { nodes := headedStreams.forest.nodes ++ #[⟨.bound "rArHSMQzZK", some "merge"⟩]
      parents := #[some 4, none, none, some 4, none] }
  edges := headedStreams.edges ++ #[.ofList [("head", 1), ("tail", 0)]]
  bound := headedStreams.bound

theorem leadsTo_headedStreams : LeadsTo .ofStream {} headedStreams :=
  ((Relation.ReflTransGen.single ⟨.boundNode "S", by decide, (by decide +kernel :
    after .ofStream {} _ = stream)⟩).tail ⟨.addNode .closedUnion ∅, by decide, rfl⟩).tail
    ⟨.addNode .closedProduct (.ofList [("head", 2), ("tail", 0)]), by decide, rfl⟩

theorem unify_headedStreams : Build.unify .ofStream "merge" [0, 3] headedStreams =
    .error (.structuralMismatch "merge" "$@int" "<>" none) halfMergedStreams := by
  decide +kernel

theorem leadsTo_halfMergedStreams : LeadsTo .ofStream headedStreams halfMergedStreams := by
  refine .single ⟨.unify "merge" [0, 3], by decide, ?_⟩
  rw [after, Build.left, unify_headedStreams]

/-- A product is found to be a stream by a call that fails. -/
theorem LeadsTo.gains_halfMergedStreams : Repository.ofStream.Reachable ∧
    LeadsTo .ofStream {} headedStreams ∧ LeadsTo .ofStream headedStreams halfMergedStreams ∧
    headedStreams.kind 3 = .closedProduct ∧ halfMergedStreams.kind 3 = .bound "rArHSMQzZK" ∧
    3 < headedStreams.size ∧ Gains .ofStream headedStreams halfMergedStreams 3 :=
  ⟨Repository.ofStream_reachable, leadsTo_headedStreams, leadsTo_halfMergedStreams,
    by decide +kernel, by decide +kernel, by decide,
    LeadsTo.gains Repository.ofStream_reachable leadsTo_headedStreams leadsTo_halfMergedStreams
      (by decide)⟩

end PatternGraph

end StructuralTyping
