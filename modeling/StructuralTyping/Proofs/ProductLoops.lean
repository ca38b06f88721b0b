import StructuralTyping.Proofs.MergeOrder
import StructuralTyping.Proofs.Termination

/-!
# Products that contain themselves

When the constraints are satisfied, every root with an edge to itself is examined. One that is not
known to be a product becomes a union, which touches no other class, and a product is refused. So
no product of an inferred graph has an edge to itself, and relations that would have one are
refused. Longer ways from a product back to itself are not examined, and can be left.
-/
namespace StructuralTyping

open PatternGraph Build

/-- Whether a pattern of the kind can have an edge to itself. -/
def PatternKind.mayLoop : PatternKind → Bool
  | .openUnion | .vector | .closedUnion | .bound _ => true
  | .unconstrained | .openProduct | .closedUntyped | .closedProduct => false

theorem PatternKind.mayLoop_or (kind : PatternKind) :
    kind.mayLoop ∨ kind ∈ [.openProduct, .closedProduct] ∨
      kind = .unconstrained ∨ kind = .closedUntyped := by
  cases kind <;> simp [mayLoop]

namespace PatternGraph
variable {repo : Repository} {constraints todo : List Constraint} {g g' : PatternGraph}
  {kind : PatternKind} {rule : String} {id root : Nat} {ids : List Nat}
  {s : PatternGraph × List (List Nat)}

/-- A root has an edge to itself. -/
def LoopsAt (g : PatternGraph) (root : Nat) : Prop :=
  root ∈ g.roots ∧ ∃ label, g.target? root label = some root

/-- Both are products of unknown code, and the first has an edge to the second. -/
structure ProductEdge (g : PatternGraph) (a b : Nat) : Prop where
  source : a ∈ g.roots
  target : b ∈ g.roots
  products : g.kind a ∈ [.openProduct, .closedProduct] ∧ g.kind b ∈ [.openProduct, .closedProduct]
  edge : ∃ label, g.target? a label = some b

theorem mem_looping_iff : root ∈ g.roots.filter (fun root =>
    (g.edgesOf root).values.any fun id => g.find id = root) ↔ g.LoopsAt root := by
  simp only [List.mem_filter, List.any_eq_true, decide_eq_true_eq, LoopsAt, target?,
    Option.map_eq_some_iff, NameMap.get?_eq_some_iff, NameMap.values, List.mem_map, Prod.exists]
  refine and_congr_right fun _ => ⟨?_, ?_⟩
  · rintro ⟨d, ⟨l, _, he, rfl⟩, hd⟩
    exact ⟨l, _, he, hd⟩
  · rintro ⟨l, d, he, hd⟩
    exact ⟨d, ⟨l, d, he, rfl⟩, hd⟩

end PatternGraph

namespace Build
variable {repo : Repository} {constraints todo : List Constraint} {g g' : PatternGraph} {fuel : Nat}

section Idle
variable {id : Nat} {ids : List Nat}

theorem closeLoop_of_product (hkind : g.kind id ∈ [.openProduct, .closedProduct]) :
    closeLoop repo id g = .error (.loopInProduct (g.shape id).text) g := by
  have hshape : (g.shape id).kind = g.kind id := rfl
  simp only [List.mem_cons, List.not_mem_nil, or_false] at hkind
  rw [closeLoop, get_bind]
  rcases hkind with hkind | hkind <;> simp only [hshape, hkind] <;> rfl

theorem closeLoop_of_mayLoop (hkind : (g.kind id).mayLoop) : closeLoop repo id g = .ok false g := by
  have hshape : (g.shape id).kind = g.kind id := rfl
  rw [closeLoop, get_bind]
  simp only [hshape]
  cases hk : g.kind id <;> simp [hk, PatternKind.mayLoop] at hkind <;> rfl

theorem closeLoop_of_union (hkind : g.kind id = .unconstrained ∨ g.kind id = .closedUntyped) :
    closeLoop repo id g = unify repo "loop" [g.find id, g.size] (g.withUnion id) := by
  have hshape : (g.shape id).kind = g.kind id := rfl
  rw [closeLoop, get_bind]
  rcases hkind with hkind | hkind <;> simp only [hshape, hkind] <;> rfl

/-- Closing a loop changes nothing only if the loop may stay. -/
theorem closeLoop_idle (hg : g.Formed) (hid : id < g.size) : Outcome (closeLoop repo id) g
    (fun changed _ => changed = false → (g.kind id).mayLoop) fun _ _ => True := by
  rcases (g.kind id).mayLoop_or with hmay | hproduct | hkind
  · rw [Outcome, closeLoop_of_mayLoop hmay]
    exact fun _ => hmay
  · rw [Outcome, closeLoop_of_product hproduct]
    trivial
  · rw [Outcome, closeLoop_of_union hkind]
    have hg₁ : (g.withUnion id).Formed := (hg.operation_withUnion repo).formed hg
    refine (unify_outcome hg₁ (hg.lt_size_withUnion hid)).imp ?_ fun _ _ _ => trivial
    rintro _ g' hm rfl
    -- The union would be gone, and it is a node more.
    have hadvances : Advances repo [] 0 g false g' := hg.advances_of_loop hid hkind hm
    have hsize : (g.withUnion id).size = g.size + 1 := size_pushNode
    rw [← hm.unchanged rfl, hadvances.unchanged rfl] at hsize
    omega

theorem closeLoopsAt_idle (hg : g.Formed) (hids : ∀ id ∈ ids, id < g.size) :
    Outcome (closeLoopsAt repo ids) g
      (fun changed _ => changed = false → ∀ id ∈ ids, (g.kind id).mayLoop) fun _ _ => True := by
  induction ids generalizing g with
  | nil => exact fun _ => by simp
  | cons id ids ih =>
    rw [List.forall_mem_cons] at hids
    rw [closeLoopsAt, outcome_bind]
    refine ((closeLoop_outcome [] 0 hg hids.1).and (closeLoop_idle hg hids.1)).imp ?_
      fun _ _ _ => trivial
    rintro changed g₁ ⟨hadvances, hidle⟩
    have hle := (Evolves.extends hg hadvances.evolves).size_le
    rw [outcome_bind]
    refine (ih (Evolves.formed hadvances.evolves hg) fun id hid => (hids.2 id hid).trans_le hle).imp
      (fun changed' g₂ hrest => ?_) fun _ _ h => h
    intro heq
    rw [Bool.or_eq_false_iff] at heq
    rw [hadvances.unchanged heq.2] at hrest
    exact List.forall_mem_cons.2 ⟨hidle heq.2, hrest heq.1⟩

theorem closeLoops_idle (hg : g.Formed) : Outcome (closeLoops repo) g
    (fun changed _ => changed = false → ∀ root, g.LoopsAt root → (g.kind root).mayLoop)
    fun _ _ => True := by
  rw [closeLoops, outcome_bind, outcome_get]
  refine (closeLoopsAt_idle hg fun id hid => ?_).imp (fun _ _ h heq root hroot => ?_)
    fun _ _ h => h
  · exact (mem_roots_iff.1 (List.mem_of_mem_filter hid)).1
  · exact h heq root (mem_looping_iff.2 hroot)

theorem round_idle (hg : g.Formed) (hwithin : ∀ c ∈ constraints, c.demand.Within g.size) :
    Outcome (round repo constraints) g
      (fun changed _ => changed = false → ∀ root, g.LoopsAt root → (g.kind root).mayLoop)
      fun _ _ => True := by
  rw [round, outcome_bind]
  refine (enforce_outcome 0 hg (List.Subset.refl _) hwithin).imp ?_ fun _ _ _ => trivial
  rintro changed g₁ ⟨hadvances, -⟩
  cases changed with
  | true => simp
  | false =>
    obtain rfl := hadvances.unchanged rfl
    exact closeLoops_idle hg

/-- Rounds end when no root has an edge to itself but those that may. -/
theorem rounds_idle (hg : g.Formed) (hwithin : ∀ c ∈ constraints, c.demand.Within g.size) :
    Outcome (rounds repo constraints fuel) g
      (fun _ g' => ∀ root, g'.LoopsAt root → (g'.kind root).mayLoop) fun _ _ => True := by
  induction fuel generalizing g with
  | zero => trivial
  | succ fuel ih =>
    rw [rounds, outcome_bind]
    refine ((round_outcome 0 hg hwithin).and (round_idle hg hwithin)).imp ?_ fun _ _ _ => trivial
    rintro changed g₁ ⟨⟨hadvances, -⟩, hidle⟩
    cases changed with
    | false =>
      obtain rfl := hadvances.unchanged rfl
      exact hidle rfl
    | true =>
      have hle := (Evolves.extends hg hadvances.evolves).size_le
      exact ih (Evolves.formed hadvances.evolves hg) fun c hc => (hwithin c hc).mono hle

end Idle

end Build

namespace PatternGraph
variable {repo : Repository} {g g' : PatternGraph} {kind : PatternKind} {rule : String}
  {id : Nat} {ids : List Nat} {s : PatternGraph × List (List Nat)} (hg : g.Formed)
  (hid : id < g.size)
include hg hid

/-- A class and the union that has its edges go together. -/
theorem Formed.joinable_withUnion
    (hkind : g.kind id = .unconstrained ∨ g.kind id = .closedUntyped) :
    Shape.Joinable repo ((g.withUnion id).shape (g.find id)) ((g.withUnion id).shape g.size) := by
  rw [hg.shape_withUnion_find hid, hg.shape_withUnion_size]
  rcases hkind with hkind | hkind <;>
    simp [Shape.Joinable, Shape.join, Shape.joinRanked, shape, hkind, PatternKind.rank]

theorem Formed.ownEdges_withUnion {root : Nat} (hroot : root ∈ [g.find id, g.size]) :
    (g.withUnion id).ownEdges root = g.edgesOf id := by
  simp only [List.mem_cons, List.not_mem_nil, or_false] at hroot
  rw [withUnion, ownEdges_pushNode hg.edges_size]
  rcases hroot with rfl | rfl
  · rw [if_neg (hg.find_lt hid).ne, edgesOf]
  · rw [if_pos rfl]

/-- Where the class and the union meet, they lead to one node. -/
theorem Formed.eq_of_meeting_withUnion (hv : ¬kind.isVector repo)
    (hids : ids ∈ meetings ((g.withUnion id).targets repo kind [g.find id, g.size])) {a b : Nat}
    (ha : a ∈ ids) (hb : b ∈ ids) : a = b := by
  obtain ⟨label, rfl⟩ := exists_label_of_mem_meetings hids
  have hedge {d : Nat} (hd : d ∈ (g.withUnion id).arrivals repo kind [g.find id, g.size] label) :
      (g.edgesOf id).get? label = some d := by
    obtain ⟨root, hroot, l, hl, rfl⟩ := mem_arrivals.1 hd
    rwa [hg.ownEdges_withUnion hid hroot, ← @PatternKind.memberLabel_of_not_isVector repo kind l hv]
      at hl
  exact Option.some.inj ((hedge ha).symm.trans (hedge hb))

/-- Merging a class with its union leaves one class under each label, so that nothing follows. -/
theorem Formed.run_withUnion
    (hrun : MergeRun repo rule (g.withUnion id, [[g.find id, g.size]]) s) :
    s = (g.withUnion id, [[g.find id, g.size]]) ∨
      ∃ kind, s.1 = (g.withUnion id).joinRoots repo kind rule [g.find id, g.size] ∧
        ∀ ids ∈ s.2, (ascending (ids.map s.1.find)).length ≤ 1 := by
  have hroots := hg.ascending_find_withUnion hid
  induction hrun with
  | refl => exact .inl rfl
  | tail hrun hstep ih =>
    right
    rcases ih with rfl | ⟨kind, hgraph, hpending⟩
    · cases hstep with
      | same hsame =>
        rw [hroots] at hsame
        simp at hsame
      | @join _ _ _ _ joined hroots' hseveral hjoin hconflict =>
        obtain rfl := hroots'.trans hroots
        refine ⟨joined.kind, rfl, fun ids hids => length_ascending_le_one fun a ha b hb => ?_⟩
        rw [List.append_nil] at hids
        have hunion := hjoin.below _
          (List.mem_map_of_mem (List.mem_cons_of_mem _ List.mem_cons_self))
        rw [hg.shape_withUnion_size] at hunion
        have hv := PatternKind.not_isVector_of_isUnion (hunion.keeps.isUnion rfl)
        rw [hg.eq_of_meeting_withUnion hid hv hids ha hb]
    · cases hstep with
      | same hsame =>
        exact ⟨kind, hgraph, fun ids hids => hpending ids (List.mem_cons_of_mem _ hids)⟩
      | join hroots' hseveral =>
        exact absurd (hpending _ List.mem_cons_self) (Nat.not_le_of_lt (hroots' ▸ hseveral))

theorem Formed.mergeable_withUnion
    (hkind : g.kind id = .unconstrained ∨ g.kind id = .closedUntyped) :
    Mergeable repo (g.withUnion id) [g.find id, g.size] := by
  intro first second others heq
  have hroots := hg.ascending_find_withUnion hid
  obtain ⟨rfl, rfl, rfl⟩ : first = g.find id ∧ second = g.size ∧ others = [] := by
    simpa [eq_comm] using heq.symm.trans hroots
  have hjoinable : Shape.Joinable repo ((g.withUnion id).shape (g.find id)) _ :=
    hg.joinable_withUnion hid hkind
  obtain ⟨m, hm⟩ := Shape.joinable_iff_merge.1 hjoinable
  have hok : (g.withUnion id).mergeShapes repo ((g.withUnion id).shape (g.find id)) [g.size] =
      .ok m := mergeShapes_eq_ok_iff.2 (by simp [hm])
  have hjoin := isJoin_of_mergeShapes hok
  have hare := ((hg.operation_withUnion repo).formed hg).areRoots_of_eq
    (hg.lt_size_withUnion hid) hroots.symm
  refine ⟨m, hok, conflict_eq_none_of_isJoin hare hjoin, fun c hc => ?_⟩
  -- Neither shape is a code.
  rcases hjoin.kind with ⟨t, ht, hk⟩ | hk | hk
  · simp only [List.map_cons, List.map_nil, List.mem_cons, List.not_mem_nil, or_false,
      hg.shape_withUnion_find hid, hg.shape_withUnion_size] at ht
    have hshape : (g.shape id).kind = g.kind id := rfl
    rcases ht with rfl | rfl
    · rcases hkind with hkind | hkind <;> simp [hc, hshape, hkind] at hk
    · simp [hc] at hk
  · simp [hc] at hk
  · simp [hc] at hk

theorem Formed.not_getsStuck_withUnion
    (hkind : g.kind id = .unconstrained ∨ g.kind id = .closedUntyped) :
    ¬GetsStuck repo rule (g.withUnion id, [[g.find id, g.size]]) := by
  rintro ⟨h, ids, rest, hrun, hstuck⟩
  rcases hg.run_withUnion hid hrun with hs | ⟨kind, -, hpending⟩
  · obtain ⟨rfl, hids⟩ := Prod.mk.inj hs
    obtain rfl := (List.cons.inj hids).1
    exact hstuck (hg.mergeable_withUnion hid hkind)
  · refine hstuck fun first second others heq => ?_
    have hone := hpending ids List.mem_cons_self
    simp [heq] at hone

/-- Merging a class with its union leaves all other roots and their shapes as they are. -/
theorem Formed.keeps_root_of_merges {changed : Bool} {root : Nat}
    (hm : Merges repo rule [g.find id, g.size] (g.withUnion id) changed g')
    (hroot : root ∈ g.roots) (hne : root ≠ g.find id) :
    root ∈ g'.roots ∧ g'.shape root = g.shape root := by
  have hg₁ : (g.withUnion id).Formed := (hg.operation_withUnion repo).formed hg
  have hare := hg₁.areRoots_of_eq (hg.lt_size_withUnion hid) (hg.ascending_find_withUnion hid).symm
  obtain ⟨hlt, hparent⟩ := mem_roots_iff.1 hroot
  have hlt₁ : root < (g.withUnion id).size := by
    rw [withUnion, size_pushNode]
    omega
  have hnot : root ∉ [g.find id, g.size] := by simp [hne, hlt.ne]
  have hfind : (g.withUnion id).find root = root := by
    rw [withUnion, hg.find_pushNode, find_of_mem_roots hroot]
  rcases hg.run_withUnion hid (hm.run []) with hs | ⟨kind, hgraph, -⟩
  · cases (Prod.mk.inj hs).2
  obtain rfl := hgraph
  refine ⟨mem_roots_iff.2 ⟨?_, ?_⟩, ?_⟩
  · rw [size_joinRoots]
    omega
  · rw [hg₁.parent?_joinRoots hare, if_neg hnot, withUnion, parent?_pushNode, hparent]
  · rw [shape, hg₁.kind_joinRoots_of_notMem hare hlt₁ (hfind.symm ▸ hnot),
      hg₁.edgesOf_joinRoots_of_notMem hare hlt₁ (hfind.symm ▸ hnot), ← hg.shape_withUnion hlt]
    rfl

end PatternGraph

namespace Build
variable {repo : Repository} {constraints todo : List Constraint} {g g₀ : PatternGraph} {fuel : Nat}
  {id root : Nat} {ids : List Nat}

section Refusal

/-- Making a union of a class never fails, and touches no other class. -/
theorem closeLoop_closes (hg : g.Formed) (hid : id ∈ g.roots)
    (hkind : g.kind id = .unconstrained ∨ g.kind id = .closedUntyped) :
    Outcome (closeLoop repo id) g (fun _ g' => g'.Formed ∧
      ∀ root ∈ g.roots, root ≠ id → root ∈ g'.roots ∧ g'.shape root = g.shape root)
      fun _ _ => False := by
  have hlt := (mem_roots_iff.1 hid).1
  have hg₁ : (g.withUnion id).Formed := (hg.operation_withUnion repo).formed hg
  have hids := hg.lt_size_withUnion hlt
  rw [Outcome, closeLoop_of_union hkind]
  refine (unify_total hg₁ hids (hg.not_getsStuck_withUnion hlt hkind)).imp
    (fun _ g' hm => ⟨hm.formed hg₁ hids, fun root hroot hne => ?_⟩) fun _ _ h => h
  exact hg.keeps_root_of_merges hlt hm hroot (by rwa [find_of_mem_roots hid])

/-- A product among roots with an edge to themselves is refused. -/
theorem closeLoopsAt_refuses (hg : g.Formed) (hids : ∀ id ∈ ids, id ∈ g.roots) (hnodup : ids.Nodup)
    (hproduct : ∃ id ∈ ids, g.kind id ∈ [.openProduct, .closedProduct]) :
    Outcome (closeLoopsAt repo ids) g (fun _ _ => False) fun e _ =>
      ∃ id ∈ ids, g.kind id ∈ [.openProduct, .closedProduct] ∧
        e = .loopInProduct (g.shape id).text := by
  induction ids generalizing g with
  | nil => simp at hproduct
  | cons id ids ih =>
    rw [List.forall_mem_cons] at hids
    rw [List.nodup_cons] at hnodup
    rw [closeLoopsAt, outcome_bind]
    by_cases hkind : g.kind id ∈ [.openProduct, .closedProduct]
    · rw [Outcome, closeLoop_of_product hkind]
      exact ⟨id, List.mem_cons_self, hkind, rfl⟩
    obtain ⟨other, hother, hproduct⟩ := hproduct
    have hlater : other ∈ ids := by
      rcases List.mem_cons.1 hother with rfl | hlater
      · exact absurd hproduct hkind
      · exact hlater
    -- The loops before it are closed or left, and the rest is as it was.
    have hclosed : Outcome (closeLoop repo id) g (fun _ g' => g'.Formed ∧
        ∀ root ∈ g.roots, root ≠ id → root ∈ g'.roots ∧ g'.shape root = g.shape root)
        fun _ _ => False := by
      rcases (g.kind id).mayLoop_or with hmay | hproduct | hunion
      · rw [Outcome, closeLoop_of_mayLoop hmay]
        exact ⟨hg, fun root hroot _ => ⟨hroot, rfl⟩⟩
      · exact absurd hproduct hkind
      · exact closeLoop_closes hg hids.1 hunion
    refine hclosed.imp ?_ fun _ _ h => h.elim
    rintro changed g₁ ⟨hg₁, hframe⟩
    have hsame (root : Nat) (hroot : root ∈ ids) : root ∈ g₁.roots ∧ g₁.shape root = g.shape root :=
      hframe root (hids.2 root hroot) fun heq => hnodup.1 (heq ▸ hroot)
    have hkinds (root : Nat) (hroot : root ∈ ids) : g₁.kind root = g.kind root :=
      congrArg Shape.kind (hsame root hroot).2
    rw [outcome_bind]
    refine (ih hg₁ (fun root hroot => (hsame root hroot).1) hnodup.2
      ⟨other, hlater, by rwa [hkinds other hlater]⟩).imp (fun _ _ h => h.elim) ?_
    rintro e g₂ ⟨root, hroot, hkind, rfl⟩
    rw [hkinds root hroot] at hkind
    exact ⟨root, List.mem_cons_of_mem _ hroot, hkind, by rw [(hsame root hroot).2]⟩

theorem closeLoops_refuses (hg : g.Formed) (hproduct : g.ProductEdge root root) :
    Outcome (closeLoops repo) g (fun _ _ => False) fun e _ =>
      ∃ other, g.ProductEdge other other ∧ e = .loopInProduct (g.shape other).text := by
  rw [closeLoops, outcome_bind, outcome_get]
  refine (closeLoopsAt_refuses hg (fun id hid => List.mem_of_mem_filter hid)
    ((nodup_roots g).filter _) ⟨root, mem_looping_iff.2 ⟨hproduct.source, hproduct.edge⟩,
      hproduct.products.1⟩).imp (fun _ _ h => h) ?_
  rintro e g' ⟨other, hother, hkind, rfl⟩
  obtain ⟨hroot, hedge⟩ := mem_looping_iff.1 hother
  exact ⟨other, ⟨hroot, hroot, ⟨hkind, hkind⟩, hedge⟩, rfl⟩

theorem unify_of_same {rule : String} (h : ∀ a ∈ ids, ∀ b ∈ ids, g.find a = g.find b) :
    unify repo rule ids g = .ok false g := by
  have hone := length_ascending_le_one h
  rw [unify, get_bind, mergeBound, mergeClasses, get_bind]
  rcases hroots : ascending (ids.map g.find) with _ | ⟨_, _ | _⟩
  · rfl
  · rfl
  · simp [hroots] at hone

theorem apply_of_holds {c : Constraint} (h : c.demand.Holds repo g) :
    c.apply repo g = .ok false g := by
  obtain ⟨rule, demand, span⟩ := c
  cases demand with
  | same patterns => exact unify_of_same h
  | edge source label target =>
    obtain ⟨present, hpresent, hfind⟩ := Option.map_eq_some_iff.1 h
    have hshape : (g.shape source).kind = g.kind source := rfl
    rw [Constraint.apply]
    simp only [addEdge, get_bind, hshape, hpresent]
    exact unify_of_same (by simp [hfind])

/-- Constraints that hold change nothing. -/
theorem enforce_of_holds (h : ∀ c ∈ todo, c.demand.Holds repo g) :
    Outcome (enforce repo todo) g (fun changed g' => changed = false ∧ g' = g)
      fun _ _ => False := by
  induction todo with
  | nil => exact ⟨rfl, rfl⟩
  | cons c todo ih =>
    rw [List.forall_mem_cons] at h
    rw [enforce, outcome_bind, outcome_located, outcome_of_eq_ok (apply_of_holds h.1),
      outcome_bind]
    exact (ih h.2).imp (fun changed g' hrest => by simpa using hrest) fun _ _ h => h

theorem round_refuses (hg : g.Formed) (hholds : ∀ c ∈ constraints, c.demand.Holds repo g)
    (hproduct : g.ProductEdge root root) :
    Outcome (round repo constraints) g (fun _ _ => False) fun e _ =>
      ∃ other, g.ProductEdge other other ∧ e = .loopInProduct (g.shape other).text := by
  rw [round, outcome_bind]
  refine (enforce_of_holds hholds).imp ?_ fun _ _ h => h.elim
  rintro changed g₁ ⟨rfl, rfl⟩
  exact closeLoops_refuses hg hproduct

theorem rounds_of_round {g' : PatternGraph} (h : round repo constraints g = .ok true g') :
    rounds repo constraints (fuel + 1) g = rounds repo constraints fuel g' := by
  rw [rounds]
  simp only [bind, EStateM.bind, h, if_true]

/-- Rounds that lead to a product with an edge to itself end with an error that names such a
product. -/
theorem rounds_refuses (hg : g₀.Formed) (hwithin : ∀ c ∈ constraints, c.demand.Within g₀.size)
    (hrun : Relation.ReflTransGen (fun g g' => round repo constraints g = .ok true g') g₀ g)
    (hholds : ∀ c ∈ constraints, c.demand.Holds repo g) (hproduct : g.ProductEdge root root)
    (hbound : ∀ g', rounds repo constraints fuel g₀ ≠ .error .exhausted g') :
    Outcome (rounds repo constraints fuel) g₀ (fun _ _ => False) fun e _ =>
      ∃ other, g.ProductEdge other other ∧ e = .loopInProduct (g.shape other).text := by
  induction hrun using Relation.ReflTransGen.head_induction_on generalizing fuel with
  | refl =>
    cases fuel with
    | zero => exact absurd rfl (hbound g)
    | succ fuel =>
      rw [rounds, outcome_bind]
      exact (round_refuses hg hholds hproduct).imp (fun _ _ h => h.elim) fun _ _ h => h
  | head hround _ ih =>
    cases fuel with
    | zero => exact absurd rfl (hbound _)
    | succ fuel =>
      have hadvances := ((round_outcome 0 hg hwithin).of_ok hround).1
      have hle := (Evolves.extends hg hadvances.evolves).size_le
      rw [rounds_of_round hround] at hbound
      rw [Outcome, rounds_of_round hround]
      exact ih (Evolves.formed hadvances.evolves hg) (fun c hc => (hwithin c hc).mono hle) hbound

end Refusal

end Build

namespace Relations
variable {repo next : Repository} {rels : Relations} {spans : SpanTable}
  {options : InferenceOptions} {inference : Inference} {constraints : List Constraint}
  {g g₀ : PatternGraph} {root : Nat} {e : PatternError}

theorem solved_loops (h : rels.solved repo (rels.sites spans) = .ok g) (hroot : g.LoopsAt root) :
    (g.kind root).mayLoop := by
  have hsettled : Outcome (do solve repo (← siteConstraints repo rels.ends (rels.allSites spans)))
      (.blank rels.endCount) (fun _ g => ∀ root, g.LoopsAt root → (g.kind root).mayLoop)
      fun _ _ => True := by
    rw [outcome_bind]
    refine (allSites_constraints_outcome repo rels spans).imp ?_ fun _ _ _ => trivial
    rintro constraints g₁ ⟨hevolves, hwithin, -⟩
    rw [solve, outcome_bind, outcome_get]
    exact rounds_idle (Evolves.formed_of_empty hevolves) hwithin
  exact hsettled.of_ok (solved_eq_ok_iff.1 h) root hroot

/-- Without promotion, the graph that is returned is the one in which all constraints hold. -/
theorem solved_of_infer (hoption : options.promoteSingletons = false)
    (h : rels.infer repo spans options = (.ok inference, next)) :
    rels.solved repo (rels.sites spans) = .ok inference.graph := by
  unfold infer at h
  simp only [hoption, Bool.false_eq_true, if_false] at h
  split at h
  · simp at h
  case h_2 g hsolved =>
    split at h
    · simp at h
    · obtain ⟨hinference, -⟩ := Prod.mk.inj h
      obtain rfl := Except.ok.inj hinference
      exact hsolved

theorem infer_of_solved_error (h : rels.solved repo (rels.sites spans) = .error e) :
    (rels.infer repo spans options).1 = .error e := by
  unfold infer
  simp only [h]

/-- No product of an inferred graph has an edge to itself: a root with such an edge is a union, a
vector or a code. If the constraints of the relations hold once some product has such an edge, what
is answered is an error that names such a product. -/
theorem infer_product_loops (hoption : options.promoteSingletons = false) :
    (∀ inference next, rels.infer repo spans options = (.ok inference, next) → ∀ root,
      ¬inference.graph.ProductEdge root root ∧
        (inference.graph.LoopsAt root → (inference.graph.kind root).mayLoop)) ∧
    ∀ constraints g₀ g root,
      siteConstraints repo rels.ends (rels.allSites spans) (.blank rels.endCount) =
        .ok constraints g₀ →
      Relation.ReflTransGen (fun g g' => round repo constraints g = .ok true g') g₀ g →
      (∀ c ∈ constraints, c.demand.Holds repo g) → g.ProductEdge root root →
      ∃ other, g.ProductEdge other other ∧
        (rels.infer repo spans options).1 = .error (.loopInProduct (g.shape other).text) := by
  constructor
  · intro inference next h root
    have hsolved := solved_of_infer hoption h
    refine ⟨fun hproduct => ?_, fun hroot => solved_loops hsolved hroot⟩
    have hmay := solved_loops hsolved ⟨hproduct.source, hproduct.edge⟩
    have hkind := hproduct.products.1
    simp only [List.mem_cons, List.not_mem_nil, or_false] at hkind
    rcases hkind with hkind | hkind <;> simp [hkind, PatternKind.mayLoop] at hmay
  · intro constraints g₀ g root hgenerated hrun hholds hproduct
    obtain ⟨hevolves, hwithin, -⟩ := (rels.allSites_constraints_outcome repo spans).of_ok hgenerated
    have hg₀ := Evolves.formed_of_empty hevolves
    have hrefuses : Outcome (do
        solve repo (← siteConstraints repo rels.ends (rels.allSites spans))) (.blank rels.endCount)
        (fun _ _ => False) fun e _ =>
          ∃ other, g.ProductEdge other other ∧ e = .loopInProduct (g.shape other).text := by
      rw [outcome_bind, outcome_of_eq_ok hgenerated, solve, outcome_bind, outcome_get]
      exact rounds_refuses hg₀ hwithin hrun hholds hproduct
        (rounds_endsWithin hg₀ hwithin).not_exhausted
    cases hsolve : (do solve repo (← siteConstraints repo rels.ends (rels.allSites spans)))
        (PatternGraph.blank rels.endCount) with
    | ok a g' => exact (hrefuses.of_ok hsolve).elim
    | error e g' =>
      obtain ⟨other, hother, rfl⟩ := hrefuses.of_error hsolve
      exact ⟨other, hother, infer_of_solved_error (solved_eq_error_iff.2 ⟨g', hsolve⟩)⟩

/-- A product of two copies of itself. -/
def nest : Relations :=
  .ofList [("nest", .product [("inner", .ref "nest"), ("outer", .ref "nest")])]

/-- What the relation demands of the six ends of its three nodes and of its product. -/
def nestConstraints : List Constraint :=
  [⟨"product", .same [0, 1], none⟩, ⟨"product", .same [0, 3], none⟩,
    ⟨"product", .same [5, 6], none⟩, ⟨"reference", .same [1, 0], none⟩,
    ⟨"reference", .same [2, 5], none⟩, ⟨"reference", .same [3, 0], none⟩,
    ⟨"reference", .same [4, 5], none⟩]

/-- The ends and the product before anything is merged. -/
def nestPattern : PatternGraph :=
  ((blank 6).pushNode .closedProduct (.ofList [("inner", 2), ("outer", 4)])).2

/-- The inputs are merged, and the outputs with the product. -/
def nestMerged : PatternGraph :=
  ((((nestPattern.joinRoots .initial .unconstrained "product" [0, 1]).joinRoots .initial
    .unconstrained "product" [3, 7]).joinRoots .initial .closedProduct "product" [5, 6]).joinRoots
    .initial .closedProduct "reference" [2, 9]).joinRoots .initial .closedProduct "reference"
    [4, 10]

theorem infer_product_loops_nest :
    siteConstraints .initial nest.ends (nest.allSites ∅) (.blank nest.endCount) =
      .ok nestConstraints nestPattern ∧
    round .initial nestConstraints nestPattern = .ok true nestMerged ∧
    (∀ c ∈ nestConstraints, c.demand.Holds .initial nestMerged) ∧
    nestMerged.ProductEdge 11 11 ∧
    (nest.infer .initial ∅ { promoteSingletons := false }).1 =
      .error (.loopInProduct "\x7binner, outer\x7d") ∧
    ∃ inference next,
      dropAll.infer .ofStream ∅ { promoteSingletons := false } = (.ok inference, next) ∧
        ∀ root, ¬inference.graph.ProductEdge root root := by
  have hgenerated : siteConstraints .initial nest.ends (nest.allSites ∅) (.blank nest.endCount) =
      .ok nestConstraints nestPattern := rfl
  have hround : round .initial nestConstraints nestPattern = .ok true nestMerged := by
    decide +kernel
  have hholds : ∀ c ∈ nestConstraints, c.demand.Holds .initial nestMerged := by
    have hsame : ∀ ids ∈ [[0, 1], [0, 3], [5, 6], [1, 0], [2, 5], [3, 0], [4, 5]],
        ∀ a ∈ ids, ∀ b ∈ ids, nestMerged.find a = nestMerged.find b := by
      decide +kernel
    simpa only [nestConstraints, List.forall_mem_cons, List.not_mem_nil, Demand.Holds,
      IsEmpty.forall_iff, implies_true, and_true] using hsame
  have hproduct : nestMerged.ProductEdge 11 11 :=
    ⟨by decide +kernel, by decide +kernel, by decide +kernel, "inner", by decide +kernel⟩
  have htext : ∀ root ∈ nestMerged.roots, nestMerged.kind root ∈ [.openProduct, .closedProduct] →
      (nestMerged.shape root).text = "\x7binner, outer\x7d" := by
    decide +kernel
  obtain ⟨-, hrefuses⟩ := @infer_product_loops .initial nest ∅ { promoteSingletons := false } rfl
  obtain ⟨other, hother, hinfer⟩ := hrefuses nestConstraints nestPattern nestMerged 11 hgenerated
    (.single hround) hholds hproduct
  rw [htext other hother.source hother.products.1] at hinfer
  have hdrop : (dropAll.infer .ofStream ∅ { promoteSingletons := false }).1.toOption.isSome := by
    decide +kernel
  refine ⟨hgenerated, hround, hholds, hproduct, hinfer, ?_⟩
  cases hresult : dropAll.infer .ofStream ∅ { promoteSingletons := false } with
  | mk result next =>
    cases result with
    | error e => simp [hresult, Except.toOption] at hdrop
    | ok inference =>
      exact ⟨inference, next, rfl, fun root =>
        ((infer_product_loops rfl).1 inference next hresult root).1⟩

/-- Two products, each of two copies of the other. -/
def mutualNest : Relations :=
  .ofList [("nest", .product [("inner", .ref "tsen"), ("outer", .ref "tsen")]),
    ("tsen", .product [("inner", .ref "nest"), ("outer", .ref "nest")])]

/-- Products that contain each other are not refused. -/
theorem infer_mutualNest : Repository.initial.Reachable ∧ ∃ inference next root,
    mutualNest.infer .initial ∅ { promoteSingletons := false } = (.ok inference, next) ∧
      Relation.TransGen inference.graph.ProductEdge root root := by
  refine ⟨⟨[], by simp, rfl⟩, ?_⟩
  have hgraph : (mutualNest.infer .initial ∅ { promoteSingletons := false }).1.toOption.map
      (fun inference => (inference.graph.roots, inference.graph.kind 22, inference.graph.kind 24,
        inference.graph.target? 22 "inner", inference.graph.target? 24 "inner")) =
      some ([21, 22, 24], .closedProduct, .closedProduct, some 24, some 22) := by
    decide +kernel
  cases hresult : mutualNest.infer .initial ∅ { promoteSingletons := false } with
  | mk result next =>
    cases result with
    | error e => simp [hresult, Except.toOption] at hgraph
    | ok inference =>
      simp only [hresult, Except.toOption, Option.map_some, Option.some.injEq,
        Prod.mk.injEq] at hgraph
      obtain ⟨hroots, hkind, hkind', hedge, hedge'⟩ := hgraph
      have hthere : inference.graph.ProductEdge 22 24 :=
        ⟨by simp [hroots], by simp [hroots], by simp [hkind, hkind'], "inner", hedge⟩
      have hback : inference.graph.ProductEdge 24 22 :=
        ⟨by simp [hroots], by simp [hroots], by simp [hkind, hkind'], "inner", hedge'⟩
      exact ⟨inference, next, 22, rfl, .tail (.single hthere) hback⟩

end Relations

end StructuralTyping
