import Mathlib.Algebra.Order.BigOperators.Group.Finset
import StructuralTyping.Inference.Solver
import StructuralTyping.Proofs.BoundClasses
import StructuralTyping.Proofs.SiteConstraints

/-!
# Solving constraints

A round of solving either changes nothing, and then all constraints hold, or it brings the graph
nearer to its end. How far it is from there is a matter of three numbers, the first of which counts
most: the classes, what their kinds leave open, and the labels that constraints ask for and classes
do not have. A merge takes away a class. Making a union of a pattern that leads to itself leaves the
number of classes as it is, unless more of them are merged thereby, but raises the rank of one. A
new edge makes for one missing label less.
-/
namespace StructuralTyping

/-- Whether an edge is demanded under a label that its source does not have. -/
def Demand.lacks (repo : Repository) (g : PatternGraph) : Demand → Bool
  | .same _ => false
  | .edge source label _ => !(g.edgesOf source).contains ((g.kind source).memberLabel repo label)

/-- Both numbers in one, the first of which counts more than any second up to the bound. -/
def weigh (bound major minor : Nat) : Nat := major * (bound + 1) + minor

theorem weigh_lt_mul {bound major minor k : Nat} (hmajor : major < k) (hminor : minor ≤ bound) :
    weigh bound major minor < k * (bound + 1) :=
  calc major * (bound + 1) + minor < major * (bound + 1) + (bound + 1) := by omega
    _ = (major + 1) * (bound + 1) := (Nat.succ_mul _ _).symm
    _ ≤ k * (bound + 1) := Nat.mul_le_mul_right _ hmajor

theorem weigh_lt_of_lt {bound major major' minor minor' : Nat} (hmajor : major' < major)
    (hminor : minor' ≤ bound) : weigh bound major' minor' < weigh bound major minor :=
  (weigh_lt_mul hmajor hminor).trans_le (Nat.le_add_right _ _)

theorem weigh_lt_of_minor_lt {bound major minor minor' : Nat} (hminor : minor' < minor) :
    weigh bound major minor' < weigh bound major minor := Nat.add_lt_add_left hminor _

/-- A shape that might be a union says less than one that is. -/
theorem Shape.Below.rank_lt_of_isUnion {repo : Repository} {s t : Shape} (h : s.Below repo t)
    (hs : s.kind = .unconstrained ∨ s.kind = .closedUntyped) (ht : t.kind.isUnion repo) :
    s.kind.rank < t.kind.rank := by
  have hle := h.rank
  rcases hs with hs | hs <;> rw [hs] at hle ⊢ <;> cases hk : t.kind <;>
    simp_all [PatternKind.isUnion, PatternKind.rank]

namespace PatternGraph
variable {repo : Repository} {constraints : List Constraint} {bound : Nat} {g g' g'' : PatternGraph}

/-- What the kinds of the classes leave open. -/
def freedom (g : PatternGraph) : Nat := ∑ root ∈ g.forest.classes, (7 - (g.node root).kind.rank)

/-- The number of demands for an edge under a label that its source does not have. -/
def missing (repo : Repository) (constraints : List Constraint) (g : PatternGraph) : Nat :=
  ((constraints.map (·.demand)).toFinset.filter (·.lacks repo g)).card

/-- How far a graph of at most so many classes is from one that no round changes. -/
def distance (repo : Repository) (constraints : List Constraint) (bound : Nat) (g : PatternGraph) :
    Nat :=
  weigh constraints.length (weigh (7 * bound) g.forest.classes.card g.freedom)
    (g.missing repo constraints)

section Distance

theorem freedom_le (h : g.forest.classes.card ≤ bound) : g.freedom ≤ 7 * bound :=
  calc g.freedom ≤ g.forest.classes.card • 7 :=
        Finset.sum_le_card_nsmul _ _ _ fun _ _ => Nat.sub_le _ _
    _ ≤ 7 * bound := by
      rw [Nat.nsmul_eq_mul]
      omega

theorem missing_le : g.missing repo constraints ≤ constraints.length :=
  calc g.missing repo constraints ≤ (constraints.map (·.demand)).toFinset.card :=
        Finset.card_filter_le _ _
    _ ≤ (constraints.map (·.demand)).length := List.toFinset_card_le _
    _ = constraints.length := List.length_map _

theorem distance_lt_roundBound :
    g.distance repo constraints g.size < Build.roundBound constraints g := by
  refine weigh_lt_mul (weigh_lt_mul ?_ ?_) missing_le
  · exact Nat.lt_succ_of_le PatternForest.card_classes_le
  · exact freedom_le PatternForest.card_classes_le

theorem distance_lt_of_fewer (h : g'.forest.classes.card < g.forest.classes.card)
    (hbound : g.forest.classes.card ≤ bound) :
    g'.distance repo constraints bound < g.distance repo constraints bound :=
  weigh_lt_of_lt (weigh_lt_of_lt h (freedom_le (by omega))) missing_le

theorem distance_lt_of_freedom_lt (h : g'.forest.classes.card = g.forest.classes.card)
    (hfreedom : g'.freedom < g.freedom) :
    g'.distance repo constraints bound < g.distance repo constraints bound := by
  refine weigh_lt_of_lt ?_ missing_le
  rw [h]
  exact weigh_lt_of_minor_lt hfreedom

/-- A class that gains an edge misses one label less. -/
theorem missing_withEdge_lt {source target : Nat} {label : String} (hg : g.Formed)
    (hsource : source < g.size)
    (hmem : Demand.edge source label target ∈ constraints.map (·.demand))
    (habsent : (g.edgesOf source).get? ((g.kind source).memberLabel repo label) = none) :
    (g.withEdge (g.find source) ((g.kind source).memberLabel repo label) target).missing repo
      constraints < g.missing repo constraints := by
  generalize hlabel : (g.kind source).memberLabel repo label = l at habsent ⊢
  have hcontains (i : Nat) (k : String) :
      ((g.withEdge (g.find source) l target).edgesOf i).contains k ↔
        g.find i = g.find source ∧ k = l ∨ (g.edgesOf i).contains k := by
    rw [edgesOf, find_withEdge, ownEdges_withEdge (hg.edges_size ▸ hg.find_lt hsource)]
    split_ifs with hi
    · rw [NameMap.contains_insert]
      simp [hi, edgesOf]
    · simp [hi, edgesOf]
  apply Finset.card_lt_card
  refine (Finset.ssubset_iff_of_subset fun d hd => ?_).2 ⟨.edge source label target, ?_, ?_⟩
  · rw [Finset.mem_filter] at hd ⊢
    refine ⟨hd.1, ?_⟩
    cases d with
    | same patterns => exact hd.2
    | edge i k _ =>
      have hlacks := hd.2
      simp only [Demand.lacks, Bool.not_eq_true', ← Bool.not_eq_true] at hlacks ⊢
      exact fun hin => hlacks ((hcontains _ _).2 (.inr hin))
  · rw [Finset.mem_filter, List.mem_toFinset]
    refine ⟨hmem, ?_⟩
    rw [Demand.lacks, hlabel, Bool.not_eq_true', ← Bool.not_eq_true]
    exact NameMap.get?_eq_none_iff.1 habsent
  · rw [Finset.mem_filter]
    rintro ⟨-, hlacks⟩
    simp only [Demand.lacks, Bool.not_eq_true', ← Bool.not_eq_true] at hlacks
    exact hlacks ((hcontains _ _).2 (.inl ⟨rfl, hlabel⟩))

end Distance

/-- The graph is brought nearer to the end by operations, or left as it is. -/
structure Advances (repo : Repository) (constraints : List Constraint) (bound : Nat)
    (g : PatternGraph) (changed : Bool) (g' : PatternGraph) : Prop where
  evolves : Evolves repo g g'
  card_le : g'.forest.classes.card ≤ g.forest.classes.card
  unchanged : changed = false → g' = g
  nearer : changed = true → g.forest.classes.card ≤ bound →
    g'.distance repo constraints bound < g.distance repo constraints bound

section Advancing
variable {changed changed' : Bool}

theorem Advances.refl (g : PatternGraph) : Advances repo constraints bound g false g :=
  ⟨.refl, Nat.le_refl _, fun _ => rfl, by simp⟩

theorem Advances.distance_le (h : Advances repo constraints bound g changed g')
    (hbound : g.forest.classes.card ≤ bound) :
    g'.distance repo constraints bound ≤ g.distance repo constraints bound := by
  cases changed with
  | false => rw [h.unchanged rfl]
  | true => exact (h.nearer rfl hbound).le

theorem Advances.trans (h : Advances repo constraints bound g changed g')
    (h' : Advances repo constraints bound g' changed' g'') :
    Advances repo constraints bound g (changed' || changed) g'' where
  evolves := h.evolves.trans h'.evolves
  card_le := h'.card_le.trans h.card_le
  unchanged heq := by
    rw [Bool.or_eq_false_iff] at heq
    rw [h'.unchanged heq.1, h.unchanged heq.2]
  nearer heq hbound := by
    have hbound' := h.card_le.trans hbound
    rcases (Bool.or_eq_true _ _).mp heq with heq | heq
    · exact (h'.nearer heq hbound').trans_le (h.distance_le hbound)
    · exact (h'.distance_le hbound').trans_lt (h.nearer heq hbound)

variable {rule : String} {ids : List Nat}

theorem Advances.of_merges (hids : ∀ id ∈ ids, id < g.size)
    (hm : Build.Merges repo rule ids g changed g') :
    Advances repo constraints bound g changed g' where
  evolves := .single (.merge hids hm)
  card_le := by
    cases changed with
    | false => rw [hm.unchanged rfl]
    | true => exact (hm.fewer rfl).le
  unchanged := hm.unchanged
  nearer heq hbound := distance_lt_of_fewer (hm.fewer heq) hbound

theorem Advances.of_addsEdge {source target : Nat} {label : String} (hg : g.Formed)
    (hsource : source < g.size) (htarget : target < g.size)
    (hmem : Demand.edge source label target ∈ constraints.map (·.demand))
    (hadds : Build.AddsEdge repo rule source label target g changed g') :
    Advances repo constraints bound g changed g' := by
  have hop : Operation repo g g' := .edge hsource htarget hadds
  cases hadds with
  | merge hpresent hmerges =>
    have hlt := hg.targets_lt _ _ _ hpresent
    exact .of_merges (by simp [hlt, htarget]) hmerges
  | gain habsent hopen =>
    refine ⟨.single hop, Nat.le_refl _, by simp, fun _ _ => ?_⟩
    exact weigh_lt_of_minor_lt (missing_withEdge_lt hg hsource hmem habsent)

end Advancing

section Loops
variable {id : Nat} {rule : String} {kind : PatternKind} {changed : Bool} (hg : g.Formed)
  (hid : id < g.size)

/-- The graph with a union that has the edges of a class. -/
def withUnion (g : PatternGraph) (id : Nat) : PatternGraph :=
  (g.pushNode .openUnion (g.edgesOf id)).2

theorem succ_size_notMem_erase (root : Nat) : g.size + 1 ∉ g.forest.classes.erase root := by
  intro hin
  have hlt : g.size + 1 < g.size :=
    (PatternForest.mem_classes.1 (Finset.mem_of_mem_erase hin)).1
  omega

include hg

theorem Formed.operation_withUnion (repo : Repository) : Operation repo g (g.withUnion id) :=
  .node rfl (fun l d hd => hg.targets_lt _ l d hd) fun _ _ => rfl

theorem Formed.shape_withUnion_size :
    (g.withUnion id).shape g.size = ⟨.openUnion, (g.edgesOf id).map fun _ => ()⟩ := by
  rw [withUnion, hg.shape_pushNode, if_pos rfl]

theorem Formed.shape_withUnion {i : Nat} (hi : i < g.size) :
    (g.withUnion id).shape i = g.shape i := by
  rw [withUnion, hg.shape_pushNode, if_neg hi.ne]

include hid

theorem Formed.shape_withUnion_find : (g.withUnion id).shape (g.find id) = g.shape id := by
  rw [hg.shape_withUnion (hg.find_lt hid), hg.shape_find]

theorem Formed.lt_size_withUnion : ∀ i ∈ [g.find id, g.size], i < (g.withUnion id).size := by
  have hfind := hg.find_lt hid
  simp only [withUnion, List.mem_cons, List.not_mem_nil, or_false, size_pushNode]
  omega

theorem Formed.ascending_find_withUnion :
    ascending ([g.find id, g.size].map (g.withUnion id).find) = [g.find id, g.size] := by
  simp only [withUnion, List.map_cons, List.map_nil, hg.find_pushNode, hg.find_find,
    hg.find_of_size_le (Nat.le_refl _)]
  simp [ascending, insertAscending, hg.find_lt hid]

/-- The classes after a class was merged with its union, and with nothing else. -/
theorem Formed.classes_joinRoots_withUnion :
    ((g.withUnion id).joinRoots repo kind rule [g.find id, g.size]).forest.classes =
      insert (g.size + 1) (g.forest.classes.erase (g.find id)) := by
  have hadopt : ((g.withUnion id).joinRoots repo kind rule
      [g.find id, g.size]).forest.classes = _ :=
    (hg.ordered.add none).classes_adopt (hg.lt_size_withUnion hid)
  have hsize : (g.forest.add .openUnion none).2.size = g.size + 1 := PatternForest.size_add none
  rw [hsize, hg.ordered.classes_add none] at hadopt
  refine hadopt.trans (congrArg _ ?_)
  have hnew : g.size ∉ g.forest.classes := PatternForest.size_notMem_classes
  ext i
  simp only [Finset.mem_sdiff, Finset.mem_insert, List.mem_toFinset, List.mem_cons,
    List.not_mem_nil, or_false, Finset.mem_erase]
  constructor
  · rintro ⟨rfl | hi, hne⟩
    · exact (hne (.inr rfl)).elim
    · exact ⟨fun heq => hne (.inl heq), hi⟩
  · rintro ⟨hne, hi⟩
    refine ⟨.inr hi, ?_⟩
    rintro (heq | rfl)
    · exact hne heq
    · exact hnew hi

theorem Formed.card_classes_joinRoots_withUnion :
    ((g.withUnion id).joinRoots repo kind rule [g.find id, g.size]).forest.classes.card =
      g.forest.classes.card := by
  have hroot : g.find id ∈ g.forest.classes := hg.ordered.find_mem_classes hid
  rw [hg.classes_joinRoots_withUnion hid, Finset.card_insert_of_notMem (succ_size_notMem_erase _),
    Finset.card_erase_add_one hroot]

/-- Raising the rank of a class leaves less open. -/
theorem Formed.freedom_joinRoots_withUnion_lt (hkind : (g.kind id).rank < kind.rank) :
    ((g.withUnion id).joinRoots repo kind rule [g.find id, g.size]).freedom < g.freedom := by
  have hroot : g.find id ∈ g.forest.classes := hg.ordered.find_mem_classes hid
  have hsize : (g.withUnion id).size = g.size + 1 := size_pushNode
  have hnode (i : Nat) : ((g.withUnion id).joinRoots repo kind rule
      [g.find id, g.size]).node i = _ := node_joinRoots i
  have hrest : ∑ root ∈ g.forest.classes.erase (g.find id),
      (7 - (((g.withUnion id).joinRoots repo kind rule
        [g.find id, g.size]).node root).kind.rank) =
      ∑ root ∈ g.forest.classes.erase (g.find id), (7 - (g.node root).kind.rank) := by
    refine Finset.sum_congr rfl fun root hin => ?_
    have hlt : root < g.size := (PatternForest.mem_classes.1 (Finset.mem_of_mem_erase hin)).1
    rw [hnode, hsize, if_neg (by omega), withUnion, node_pushNode, if_neg hlt.ne]
  have hfree : 7 - kind.rank < 7 - (g.node (g.find id)).kind.rank := by
    have hrank : kind.rank ≤ 7 := by cases kind <;> simp [PatternKind.rank]
    change _ < 7 - (g.kind id).rank
    omega
  rw [freedom, freedom, hg.classes_joinRoots_withUnion hid,
    Finset.sum_insert (succ_size_notMem_erase _), hrest, ← Finset.add_sum_erase _ _ hroot, hnode,
    hsize, if_pos rfl]
  exact Nat.add_lt_add_right hfree _

/-- A class that is not known to be a union gains in rank when it is merged with its union, after
which further classes may be merged. -/
theorem Formed.exists_joinRoots_of_merges
    (hkind : g.kind id = .unconstrained ∨ g.kind id = .closedUntyped)
    (hm : Build.Merges repo rule [g.find id, g.size] (g.withUnion id) changed g') :
    ∃ kind, (g.kind id).rank < kind.rank ∧
      (g' = (g.withUnion id).joinRoots repo kind rule [g.find id, g.size] ∨
        g'.forest.classes.card < g.forest.classes.card) := by
  have hroots := hg.ascending_find_withUnion hid
  have hready := ready_singleton ((hg.operation_withUnion repo).formed hg)
    (hg.lt_size_withUnion hid)
  -- The first step puts both below a new root.
  obtain heq | ⟨s, hstep, hrun⟩ := (hm.run []).cases_head
  · simp at heq
  replace hready := hstep.ready hready
  cases hstep with
  | same hsame =>
    rw [hroots] at hsame
    simp at hsame
  | @join _ _ _ _ joined hroots' hseveral hjoin hconflict =>
    obtain rfl := hroots'.trans hroots
    have hbelow := hjoin.below _ (List.mem_map_of_mem List.mem_cons_self)
    have hunion := hjoin.below _ (List.mem_map_of_mem (List.mem_cons_of_mem _ List.mem_cons_self))
    rw [hg.shape_withUnion_find hid] at hbelow
    rw [hg.shape_withUnion_size] at hunion
    refine ⟨joined.kind, hbelow.rank_lt_of_isUnion hkind hunion.keeps, ?_⟩
    refine (MergeRun.eq_or_fewer hrun hready).imp_right fun hlt => ?_
    exact hlt.trans_eq (hg.card_classes_joinRoots_withUnion hid)

/-- Making a union of a class brings the graph nearer to the end. -/
theorem Formed.advances_of_loop (hkind : g.kind id = .unconstrained ∨ g.kind id = .closedUntyped)
    (hm : Build.Merges repo rule [g.find id, g.size] (g.withUnion id) changed g') :
    Advances repo constraints bound g changed g' := by
  obtain ⟨kind, hrank, hend⟩ := hg.exists_joinRoots_of_merges hid hkind hm
  have hcard : ((g.withUnion id).joinRoots repo kind rule
      [g.find id, g.size]).forest.classes.card = _ := hg.card_classes_joinRoots_withUnion hid
  have hle : g'.forest.classes.card ≤ g.forest.classes.card := by
    rcases hend with rfl | hlt
    · exact hcard.le
    · exact hlt.le
  refine ⟨.tail (.single (hg.operation_withUnion repo)) (.merge (hg.lt_size_withUnion hid) hm), hle,
    fun heq => ?_, fun _ hbound => ?_⟩
  · -- The union is a class of its own at first, so the graph does change.
    have hadd : (g.withUnion id).forest.classes = _ := hg.ordered.classes_add none
    rw [hm.unchanged heq, hadd, Finset.card_insert_of_notMem PatternForest.size_notMem_classes]
      at hle
    omega
  · rcases hend with rfl | hlt
    · exact distance_lt_of_freedom_lt hcard (hg.freedom_joinRoots_withUnion_lt hid hrank)
    · exact distance_lt_of_fewer hlt hbound

end Loops

end PatternGraph

namespace Build
variable {repo : Repository} {constraints todo : List Constraint} {g : PatternGraph} (bound : Nat)

open PatternGraph

/-- Enforcing a constraint changes nothing only if it holds. -/
theorem apply_outcome {c : Constraint} (hg : g.Formed) (hmem : c ∈ constraints)
    (hc : c.demand.Within g.size) :
    Outcome (c.apply repo) g (fun changed g' => Advances repo constraints bound g changed g' ∧
      (changed = false → c.demand.Holds repo g)) fun e _ => e ≠ .exhausted := by
  obtain ⟨rule, demand, span⟩ := c
  cases demand with
  | same patterns =>
    refine (unify_outcome hg hc).imp (fun changed g' hm => ⟨.of_merges hc hm, ?_⟩) fun _ _ h => h
    intro heq a ha b hb
    rw [← hm.unchanged heq]
    exact hm.find_eq hg hc ha hb
  | edge source label target =>
    refine (addEdge_outcome hg hc.2).imp (fun changed g' hadds => ⟨?_, ?_⟩) fun _ _ h => h
    · exact .of_addsEdge hg hc.1 hc.2 (List.mem_map_of_mem hmem) hadds
    · rintro rfl
      cases hadds with
      | @merge present _ _ hpresent hm =>
        have hids : ∀ id ∈ [present, target], id < g.size := by
          have hlt := hg.targets_lt _ _ _ hpresent
          simp [hlt, hc.2]
        have hfind := hm.find_eq hg hids List.mem_cons_self
          (List.mem_cons_of_mem _ List.mem_cons_self)
        rw [hm.unchanged rfl] at hfind
        rw [Demand.Holds, target?, hpresent, Option.map_some, hfind]

theorem outcome_located {α : Type} {m : Build α} {span : Option Text.Span}
    {ok : α → PatternGraph → Prop} {fail : PatternError → PatternGraph → Prop} :
    Outcome (tryCatchThe PatternError m fun e => throw (e.located span)) g ok fail ↔
      Outcome m g ok fun e => fail (e.located span) := by
  simp only [Outcome, tryCatchThe, MonadExceptOf.tryCatch, EStateM.tryCatch]
  cases m g with
  | ok a g' => rfl
  | error e g' => rfl

theorem located_ne_exhausted {e : PatternError} (span : Option Text.Span) (h : e ≠ .exhausted) :
    e.located span ≠ .exhausted := by
  unfold PatternError.located
  split
  · simp
  · exact h

theorem enforce_outcome (hg : g.Formed) (hsub : todo ⊆ constraints)
    (hwithin : ∀ c ∈ todo, c.demand.Within g.size) :
    Outcome (enforce repo todo) g (fun changed g' => Advances repo constraints bound g changed g' ∧
      (changed = false → ∀ c ∈ todo, c.demand.Holds repo g)) fun e _ => e ≠ .exhausted := by
  induction todo generalizing g with
  | nil => exact ⟨.refl g, by simp⟩
  | cons c todo ih =>
    rw [List.forall_mem_cons] at hwithin
    rw [List.cons_subset] at hsub
    rw [enforce, outcome_bind, outcome_located]
    refine (apply_outcome bound hg hsub.1 hwithin.1).imp ?_ fun _ _ h => located_ne_exhausted _ h
    rintro changed g₁ ⟨hadv, hholds⟩
    have hle := (Evolves.extends hg hadv.evolves).size_le
    rw [outcome_bind]
    refine (ih (Evolves.formed hadv.evolves hg) hsub.2 fun c hc =>
      (hwithin.2 c hc).mono hle).imp ?_ fun _ _ h => h
    rintro changed' g₂ ⟨hadv', hholds'⟩
    refine ⟨hadv.trans hadv', fun heq => ?_⟩
    rw [Bool.or_eq_false_iff] at heq
    rw [hadv.unchanged heq.2] at hholds'
    exact List.forall_mem_cons.2 ⟨hholds heq.2, hholds' heq.1⟩

variable (constraints)

theorem closeLoop_outcome {id : Nat} (hg : g.Formed) (hid : id < g.size) :
    Outcome (closeLoop repo id) g (Advances repo constraints bound g)
      fun e _ => e ≠ .exhausted := by
  have hlift (hkind : g.kind id = .unconstrained ∨ g.kind id = .closedUntyped) :
      Outcome (unify repo "loop" [g.find id, g.size]) (g.withUnion id)
        (Advances repo constraints bound g) fun e _ => e ≠ .exhausted := by
    have hg₁ : (g.withUnion id).Formed := (hg.operation_withUnion repo).formed hg
    exact (unify_outcome hg₁ (hg.lt_size_withUnion hid)).imp
      (fun changed g' hm => hg.advances_of_loop hid hkind hm) fun _ _ h => h
  rw [closeLoop, outcome_bind, outcome_get]
  have hshape : (g.shape id).kind = g.kind id := rfl
  simp only [hshape]
  cases hkind : g.kind id with
  | unconstrained => exact hlift (.inl hkind)
  | closedUntyped => exact hlift (.inr hkind)
  | openProduct => simp
  | closedProduct => simp
  | openUnion => exact .refl g
  | vector => exact .refl g
  | closedUnion => exact .refl g
  | bound c => exact .refl g

theorem closeLoopsAt_outcome {ids : List Nat} (hg : g.Formed) (hids : ∀ id ∈ ids, id < g.size) :
    Outcome (closeLoopsAt repo ids) g (Advances repo constraints bound g)
      fun e _ => e ≠ .exhausted := by
  induction ids generalizing g with
  | nil => exact .refl g
  | cons id ids ih =>
    rw [List.forall_mem_cons] at hids
    rw [closeLoopsAt, outcome_bind]
    refine (closeLoop_outcome constraints bound hg hids.1).imp (fun changed g₁ hadv => ?_)
      fun _ _ h => h
    have hle := (Evolves.extends hg hadv.evolves).size_le
    rw [outcome_bind]
    refine (ih (Evolves.formed hadv.evolves hg) fun id hid => (hids.2 id hid).trans_le hle).imp
      (fun changed' g₂ hadv' => ?_) fun _ _ h => h
    exact hadv.trans hadv'

theorem closeLoops_outcome (hg : g.Formed) :
    Outcome (closeLoops repo) g (Advances repo constraints bound g) fun e _ => e ≠ .exhausted := by
  rw [closeLoops, outcome_bind, outcome_get]
  refine closeLoopsAt_outcome constraints bound hg fun id hid => ?_
  exact (mem_roots_iff.1 (List.mem_of_mem_filter hid)).1

variable {constraints}

/-- A round that changes nothing leaves all constraints satisfied. -/
theorem round_outcome (hg : g.Formed) (hwithin : ∀ c ∈ constraints, c.demand.Within g.size) :
    Outcome (round repo constraints) g (fun changed g' =>
      Advances repo constraints bound g changed g' ∧
        (changed = false → ∀ c ∈ constraints, c.demand.Holds repo g))
      fun e _ => e ≠ .exhausted := by
  rw [round, outcome_bind]
  refine (enforce_outcome bound hg (List.Subset.refl _) hwithin).imp ?_ fun _ _ h => h
  rintro changed g₁ ⟨hadv, hholds⟩
  cases changed with
  | true => exact ⟨hadv, by simp⟩
  | false =>
    obtain rfl := hadv.unchanged rfl
    refine (closeLoops_outcome constraints bound hg).imp (fun changed g₂ hadv' => ?_)
      fun _ _ h => h
    exact ⟨hadv', fun _ => hholds rfl⟩

/-- Rounds end in a graph in which all constraints hold, or fail because shapes or codes do not go
together. -/
theorem rounds_outcome {fuel : Nat} (hg : g.Formed)
    (hwithin : ∀ c ∈ constraints, c.demand.Within g.size)
    (hbound : g.forest.classes.card ≤ bound) (hfuel : g.distance repo constraints bound < fuel) :
    Outcome (rounds repo constraints fuel) g (fun _ g' => Evolves repo g g' ∧
      ∀ c ∈ constraints, c.demand.Holds repo g') fun e _ => e ≠ .exhausted := by
  induction fuel generalizing g with
  | zero => omega
  | succ fuel ih =>
    rw [rounds, outcome_bind]
    refine (round_outcome bound hg hwithin).imp ?_ fun _ _ h => h
    rintro changed g₁ ⟨hadv, hholds⟩
    cases changed with
    | false =>
      obtain rfl := hadv.unchanged rfl
      exact ⟨.refl, hholds rfl⟩
    | true =>
      have hle := (Evolves.extends hg hadv.evolves).size_le
      have hnearer := hadv.nearer rfl hbound
      refine (ih (Evolves.formed hadv.evolves hg) (fun c hc => (hwithin c hc).mono hle)
        (hadv.card_le.trans hbound) (by omega)).imp (fun _ g₂ h => ?_) fun _ _ h => h
      exact ⟨hadv.evolves.trans h.1, h.2⟩

theorem solve_outcome (hg : g.Formed) (hwithin : ∀ c ∈ constraints, c.demand.Within g.size) :
    Outcome (solve repo constraints) g (fun _ g' => Evolves repo g g' ∧
      ∀ c ∈ constraints, c.demand.Holds repo g') fun e _ => e ≠ .exhausted := by
  rw [solve, outcome_bind, outcome_get]
  exact rounds_outcome g.size hg hwithin PatternForest.card_classes_le distance_lt_roundBound

theorem rounds_approximates (repo : Repository) (constraints : List Constraint) (fuel : Nat) :
    Approximates (rounds repo constraints fuel) (rounds repo constraints (fuel + 1)) := by
  induction fuel with
  | zero => exact fun g => .inr ⟨g, rfl⟩
  | succ fuel ih =>
    rw [rounds, rounds]
    refine (Approximates.refl _).bind fun changed => ?_
    cases changed with
    | true => exact ih
    | false => exact .refl _

end Build

end StructuralTyping
