import StructuralTyping.Proofs.GainedInformation

/-!
# Merges that fail

A call that fails leaves a graph in the midst of a merge, and later calls go on with it. However
many calls have failed, the tables of the graph agree, every code is known and has one class. So
the only thing that can go wrong next is that two shapes do not go together: the root of a code is
among the roots to be joined, and roots that are codes are never put below a root that is not. Main
statement: `Attempts.only_mismatches`.
-/
namespace StructuralTyping.PatternGraph
variable {repo : Repository} {g g' : PatternGraph} {kind : PatternKind} {rule label name c : String}
  {edges : NameMap Nat} {ids : List Nat} {source target : Nat} {call : Call}

/-- New nodes are not codes, codes that are asked for are known, and nodes that are spoken of are
there. -/
def Call.Permitted (repo : Repository) (g : PatternGraph) : Call → Prop
  | addNode kind edges => kind.bound? = none ∧ ∀ d ∈ edges.values, d < g.size
  | boundNode name => (repo.canonical name).isSome
  | unify _ ids => ∀ id ∈ ids, id < g.size
  | addEdge _ source _ target => source < g.size ∧ target < g.size

instance (repo : Repository) (g : PatternGraph) : (call : Call) → Decidable (call.Permitted repo g)
  | .addNode _ _ => inferInstanceAs (Decidable (_ ∧ _))
  | .boundNode name => inferInstanceAs (Decidable (repo.canonical name).isSome)
  | .unify _ ids => inferInstanceAs (Decidable (∀ id ∈ ids, id < g.size))
  | .addEdge _ _ _ _ => inferInstanceAs (Decidable (_ ∧ _))

/-- Any number of calls, successful or not, leads from one graph to another. -/
abbrev Attempts (repo : Repository) : PatternGraph → PatternGraph → Prop :=
  Relation.ReflTransGen fun g g' => ∃ call : Call, call.Permitted repo g ∧ g.after repo call = g'

/-- The tables of a graph agree. -/
structure Intact (g : PatternGraph) : Prop where
  edges_size : g.edges.size = g.size
  parents_size : g.forest.parents.size = g.size
  target_lt : ∀ n l d, (g.ownEdges n).get? l = some d → d < g.size
  parent_gt : ∀ i p, g.forest.parent? i = some p → i < p ∧ p < g.size
  recorded : ∀ c id, g.bound.get? c = some id → id < g.size ∧ g.kind id = .bound c

/-- The error says that two shapes do not go together. -/
def IsMismatch (rule : String) (e : PatternError) : Prop :=
  ∃ l r : Shape, e = .structuralMismatch rule l.text r.text none

/-- A call succeeds, or it fails because two shapes do not go together. -/
def Call.SucceedsOrMismatches (repo : Repository) (g : PatternGraph) : Call → Prop
  | addNode kind edges => Build.Outcome (Build.addNode kind edges) g (fun _ _ => True)
      fun _ _ => False
  | boundNode name => Build.Outcome (Build.boundNode repo name) g (fun _ _ => True)
      fun _ _ => False
  | unify rule ids => Build.Outcome (Build.unify repo rule ids) g (fun _ _ => True)
      fun e _ => IsMismatch rule e
  | addEdge rule source label target =>
      Build.Outcome (Build.addEdge repo rule source label target) g (fun _ _ => True)
        fun e _ => IsMismatch rule e

/-- A well-formed graph, all codes of which are known. -/
structure Steady (repo : Repository) (g : PatternGraph) : Prop where
  formed : g.Formed
  known : ∀ c, g.bound.contains c → repo.Known c

theorem Settled.steady {pending : List (List Nat)} (h : g.Settled repo pending) :
    g.Steady repo := ⟨h.formed, h.known⟩

theorem Formed.intact (hg : g.Formed) : g.Intact where
  edges_size := hg.edges_size
  parents_size := hg.ordered.parents_size
  target_lt := hg.targets_lt
  parent_gt := hg.ordered.younger
  recorded c id hid :=
    ⟨lt_size_of_kind (hg.codes c id hid), hg.kind_of_bound (hg.codes c id hid)⟩

section Calls
variable (h : g.Steady repo)
include h

theorem Steady.addNode_outcome (hkind : kind.bound? = none)
    (hedges : ∀ d ∈ edges.values, d < g.size) :
    Build.Outcome (Build.addNode kind edges) g (fun _ g' => g'.Steady repo) fun _ _ => False := by
  rw [Build.outcome_addNode]
  refine ⟨h.formed.pushNode (fun l d hd => hedges d ?_) hkind, h.known⟩
  exact List.mem_map.2 ⟨(l, d), NameMap.get?_eq_some_iff.1 hd, rfl⟩

/-- What a code refers to is known, so its pattern can always be drawn. -/
theorem Steady.boundNode_outcome (hrepo : repo.Consistent) (hname : (repo.canonical name).isSome) :
    Build.Outcome (Build.boundNode repo name) g (fun _ g' => g'.Steady repo)
      fun _ _ => False := by
  obtain ⟨c, hc⟩ := Option.isSome_iff_exists.1 hname
  have hknown := hrepo.aliasesKnown.known hc
  rw [Build.boundNode_of_canonical hknown hc]
  refine (Build.boundNode_outcome_of_known hrepo hknown h.formed).imp (fun id g' hb => ?_)
    fun _ _ hfalse => hfalse
  refine ⟨hb.formed, fun d hd => ?_⟩
  rcases hb.grows.known d hd with hold | ⟨name', hname'⟩
  · exact h.known d hold
  · exact hrepo.aliasesKnown.known hname'

/-- No code is bound while classes are merged, so what is known stays known. -/
theorem Steady.mergeRun {pending pending' : List (List Nat)} (hready : Ready (g, pending))
    (hrun : MergeRun repo rule (g, pending) (g', pending')) : g'.Steady repo := by
  have hbound : g'.bound = g.bound := MergeRun.bound_eq hrun
  exact ⟨(MergeRun.ready hrun hready).formed, hbound ▸ h.known⟩

theorem Steady.of_fails {e : PatternError} (hids : ∀ id ∈ ids, id < g.size)
    (hfails : ∀ rest, Fails repo rule (g, ids :: rest) e g') :
    IsMismatch rule e ∧ g'.Steady repo := by
  have hready := ready_singleton h.formed hids
  obtain ⟨hmismatch, _, hrun⟩ := (hfails []).exists_mergeRun hready h.known
  exact ⟨hmismatch, h.mergeRun hready hrun⟩

theorem Steady.unify_outcome (hids : ∀ id ∈ ids, id < g.size) :
    Build.Outcome (Build.unify repo rule ids) g (fun _ g' => g'.Steady repo)
      fun e g' => IsMismatch rule e ∧ g'.Steady repo :=
  (Build.unify_merges_or_fails h.formed hids).imp
    (fun _ _ hmerges => h.mergeRun (ready_singleton h.formed hids) (hmerges.run []))
    fun _ _ hfails => h.of_fails hids hfails

theorem Steady.addEdge_outcome (hsource : source < g.size) (htarget : target < g.size) :
    Build.Outcome (Build.addEdge repo rule source label target) g (fun _ g' => g'.Steady repo)
      fun e g' => IsMismatch rule e ∧ g'.Steady repo := by
  -- Where there is an edge already, its target is merged with the new one.
  have hpair {present : Nat} (hpresent : (g.edgesOf source).get?
      ((g.kind source).memberLabel repo label) = some present) :
      ∀ id ∈ [present, target], id < g.size := by
    simp [h.formed.targets_lt _ _ _ hpresent, htarget]
  refine (Build.addEdge_adds_or_refuses h.formed htarget).imp (fun _ g' hadds => ?_)
    fun e g' hrefuses => ?_
  · cases hadds with
    | merge hpresent hmerges =>
      exact h.mergeRun (ready_singleton h.formed (hpair hpresent)) (hmerges.run [])
    | gain => exact ⟨h.formed.withEdge (h.formed.find_lt hsource) htarget, h.known⟩
  · cases hrefuses with
    | merge hpresent hfails => exact h.of_fails (hpair hpresent) hfails
    | closed => exact ⟨⟨_, _, rfl⟩, h⟩

theorem Steady.succeedsOrMismatches (hrepo : repo.Consistent) (hcall : call.Permitted repo g) :
    call.SucceedsOrMismatches repo g := by
  cases call with
  | addNode kind edges => trivial
  | boundNode name =>
    exact (h.boundNode_outcome hrepo hcall).imp (fun _ _ _ => trivial) fun _ _ hfalse => hfalse
  | unify rule ids =>
    exact (h.unify_outcome hcall).imp (fun _ _ _ => trivial) fun _ _ hfails => hfails.1
  | addEdge rule source label target =>
    exact (h.addEdge_outcome hcall.1 hcall.2).imp (fun _ _ _ => trivial) fun _ _ hfails => hfails.1

/-- A call leaves a steady graph, also if it fails. -/
theorem Steady.after (hrepo : repo.Consistent) (hcall : call.Permitted repo g) :
    (g.after repo call).Steady repo := by
  cases call with
  | addNode kind edges =>
    exact (h.addNode_outcome hcall.1 hcall.2).left (fun _ _ h' => h') fun _ _ hfalse => hfalse.elim
  | boundNode name =>
    exact (h.boundNode_outcome hrepo hcall).left (fun _ _ h' => h') fun _ _ hfalse => hfalse.elim
  | unify rule ids => exact (h.unify_outcome hcall).left (fun _ _ h' => h') fun _ _ h' => h'.2
  | addEdge rule source label target =>
    exact (h.addEdge_outcome hcall.1 hcall.2).left (fun _ _ h' => h') fun _ _ h' => h'.2

theorem Attempts.steady (hrepo : repo.Consistent) (hrun : Attempts repo g g') :
    g'.Steady repo := by
  induction hrun with
  | refl => exact h
  | tail _ hcall ih =>
    obtain ⟨call, hpermitted, rfl⟩ := hcall
    exact ih.after hrepo hpermitted

end Calls

/-- Whatever was done to a graph, and whether or not it failed, its tables agree, and the next call
fails for no other reason than that two shapes do not go together. -/
theorem Attempts.only_mismatches (hrepo : repo.Reachable) (hg : Attempts repo {} g) :
    g.Intact ∧ ∀ call : Call, call.Permitted repo g →
      call.SucceedsOrMismatches repo g ∧ (g.after repo call).Intact := by
  have h := hg.steady settled_empty.steady hrepo.consistent
  refine ⟨h.formed.intact, fun call hcall => ?_⟩
  exact ⟨h.succeedsOrMismatches hrepo.consistent hcall,
    (h.after hrepo.consistent hcall).formed.intact⟩

/-- Asking for a code that is not known does nothing, so it need not be done. -/
theorem LeadsTo.attempts (hrun : LeadsTo repo g g') : Attempts repo g g' := by
  induction hrun with
  | refl => exact .refl
  | tail _ hcall ih =>
    obtain ⟨call, hadmissible, rfl⟩ := hcall
    cases call with
    | addNode kind edges =>
      exact ih.tail ⟨.addNode kind edges, ⟨hadmissible.1, hadmissible.2.1⟩, rfl⟩
    | boundNode name =>
      cases hname : repo.canonical name with
      | none => rwa [after, Build.left, Build.boundNode_of_canonical_eq_none hname]
      | some c => exact ih.tail ⟨.boundNode name, Option.isSome_of_eq_some hname, rfl⟩
    | unify rule ids => exact ih.tail ⟨.unify rule ids, hadmissible, rfl⟩
    | addEdge rule source label target =>
      exact ih.tail ⟨.addEdge rule source label target, hadmissible, rfl⟩

theorem attempts_halfMergedStreams : Attempts .ofStream {} halfMergedStreams :=
  LeadsTo.attempts (leadsTo_headedStreams.trans leadsTo_halfMergedStreams)

/-- A call after one that failed. -/
theorem Attempts.only_mismatches_halfMergedStreams : Repository.ofStream.Reachable ∧
    Attempts .ofStream {} halfMergedStreams ∧ halfMergedStreams.Intact ∧
    Call.Permitted .ofStream halfMergedStreams (.unify "heads" [1, 2]) ∧
    Call.SucceedsOrMismatches .ofStream halfMergedStreams (.unify "heads" [1, 2]) ∧
    (halfMergedStreams.after .ofStream (.unify "heads" [1, 2])).Intact := by
  have hpermitted : Call.Permitted .ofStream halfMergedStreams (.unify "heads" [1, 2]) := by decide
  have hmain := Attempts.only_mismatches Repository.ofStream_reachable attempts_halfMergedStreams
  exact ⟨Repository.ofStream_reachable, attempts_halfMergedStreams, hmain.1, hpermitted,
    hmain.2 _ hpermitted⟩

end StructuralTyping.PatternGraph
