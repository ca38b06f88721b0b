import Mathlib.Logic.Relation
import StructuralTyping.Pattern.Promotion
import StructuralTyping.Proofs.ForestCalls
import StructuralTyping.Proofs.FormedGraph

/-!
# The search for singletons

The search goes against the edges. It starts with the ambiguous roots on its stack, and looking at a
root puts those of its sources there that were not tainted before. So what leads to a tainted root
is tainted too, unless that root is still on the stack, and each root is on the stack once. In the
end the tainted roots are those from which an ambiguous root can be reached. Main statement:
`Grounded.singletons_exact`.
-/
namespace StructuralTyping

namespace Tainting
variable {incoming : List (Nat × Nat)} {s : Tainting} {roots ids : List Nat} {fuel m n t : Nat}

section Steps

theorem mem_sources : n ∈ sources incoming t ↔ (t, n) ∈ incoming := by
  simp [sources]

theorem mem_tainted_taint : m ∈ (s.taint n).tainted ↔ m ∈ s.tainted ∨ m = n := by
  unfold taint
  split_ifs with hn
  · exact ⟨.inl, fun h => h.elim id fun h => h ▸ hn⟩
  · rw [List.mem_cons, or_comm]

theorem mem_stack_taint : m ∈ (s.taint n).stack ↔ m ∈ s.stack ∨ m = n ∧ n ∉ s.tainted := by
  unfold taint
  split_ifs with hn <;> simp [hn, or_comm]

theorem mem_tainted_foldl : m ∈ (ids.foldl taint s).tainted ↔ m ∈ s.tainted ∨ m ∈ ids := by
  induction ids generalizing s with
  | nil => simp
  | cons n ids ih => rw [List.foldl_cons, ih, mem_tainted_taint, List.mem_cons, or_assoc]

theorem mem_stack_foldl :
    m ∈ (ids.foldl taint s).stack ↔ m ∈ s.stack ∨ m ∈ ids ∧ m ∉ s.tainted := by
  induction ids generalizing s with
  | nil => simp
  | cons n ids ih =>
    rw [List.foldl_cons, ih, mem_stack_taint, mem_tainted_taint, List.mem_cons]
    by_cases hm : m = n
    · simp [hm]
    · simp [hm]

end Steps

section Stack

/-- What leads to a tainted root is tainted if the root was looked at. -/
def LookedAt (incoming : List (Nat × Nat)) (s : Tainting) : Prop :=
  ∀ e ∈ incoming, e.1 ∈ s.tainted → e.1 ∈ s.stack ∨ e.2 ∈ s.tainted

theorem LookedAt.next {root : Nat} {stack tainted : List Nat}
    (h : LookedAt incoming ⟨root :: stack, tainted⟩) :
    LookedAt incoming ((sources incoming root).foldl taint ⟨stack, tainted⟩) := by
  rintro ⟨t, n⟩ he ht
  rw [mem_tainted_foldl] at ht ⊢
  rw [mem_stack_foldl]
  by_cases htainted : t ∈ tainted
  · rcases h (t, n) he htainted with hstack | hn
    · rcases List.mem_cons.1 hstack with rfl | hstack
      · exact .inr (.inr (mem_sources.2 he))
      · exact .inl (.inl hstack)
    · exact .inr (.inl hn)
  · exact .inl (.inr ⟨ht.resolve_left htainted, htainted⟩)

/-- The roots that are still to be looked at: those on the stack, and those not tainted yet. -/
def left (roots : List Nat) (s : Tainting) : Nat :=
  s.stack.length + (roots.filter (· ∉ s.tainted)).length

theorem left_taint_le (hn : n ∈ roots) : (s.taint n).left roots ≤ s.left roots := by
  unfold taint
  split_ifs with htainted
  · exact Nat.le_refl _
  · have hfewer : (roots.filter (· ∉ n :: s.tainted)).length <
        (roots.filter (· ∉ s.tainted)).length := by
      have hrest : roots.filter (· ∉ n :: s.tainted) =
          (roots.filter (· ∉ s.tainted)).filter (· ≠ n) := by
        rw [List.filter_filter]
        exact List.filter_congr fun m _ => by simp
      rw [hrest, List.length_filter_lt_length_iff_exists]
      exact ⟨n, List.mem_filter.2 ⟨hn, by simpa using htainted⟩, by simp⟩
    simp only [left, List.length_cons]
    omega

theorem left_foldl_le (hids : ∀ n ∈ ids, n ∈ roots) :
    (ids.foldl taint s).left roots ≤ s.left roots := by
  induction ids generalizing s with
  | nil => exact Nat.le_refl _
  | cons n ids ih =>
    rw [List.forall_mem_cons] at hids
    exact (ih hids.2).trans (left_taint_le hids.1)

end Stack

section Run

theorem subset_run : s.tainted ⊆ run incoming fuel s := by
  fun_induction run incoming fuel s with
  | case1 => exact List.Subset.refl _
  | case2 => exact List.Subset.refl _
  | case3 fuel root stack tainted ih =>
    exact fun n hn => ih (mem_tainted_foldl.2 (.inl hn))

/-- What holds of the tainted roots holds of all that are tainted after them, if it is passed on
from the target of an edge to its source. -/
theorem run_induction {p : Nat → Prop} (hstep : ∀ e ∈ incoming, p e.1 → p e.2)
    (h : ∀ n ∈ s.tainted, p n) (hstack : ∀ n ∈ s.stack, p n) :
    ∀ n ∈ run incoming fuel s, p n := by
  fun_induction run incoming fuel s with
  | case1 => exact h
  | case2 => exact h
  | case3 fuel root stack tainted ih =>
    have hsources (n : Nat) (hn : n ∈ sources incoming root) : p n :=
      hstep (root, n) (mem_sources.1 hn) (hstack root List.mem_cons_self)
    refine ih (fun n hn => ?_) fun n hn => ?_
    · exact (mem_tainted_foldl.1 hn).elim (h n) (hsources n)
    · exact (mem_stack_foldl.1 hn).elim (fun hn => hstack n (List.mem_cons_of_mem root hn))
        fun hn => hsources n hn.1

/-- With as many steps as roots are left, all that leads to a tainted root is tainted. -/
theorem run_closed (hroots : ∀ e ∈ incoming, e.2 ∈ roots) (hfuel : s.left roots ≤ fuel)
    (h : LookedAt incoming s) :
    ∀ e ∈ incoming, e.1 ∈ run incoming fuel s → e.2 ∈ run incoming fuel s := by
  fun_induction run incoming fuel s with
  | case1 => exact fun e he ht => (h e he ht).resolve_left (by simp)
  | case2 => simp [left] at hfuel
  | case3 fuel root stack tainted ih =>
    have hsources : ∀ n ∈ sources incoming root, n ∈ roots := fun n hn =>
      hroots (root, n) (mem_sources.1 hn)
    refine ih ((left_foldl_le hsources).trans ?_) h.next
    simp only [left, List.length_cons] at hfuel ⊢
    omega

end Run

end Tainting

namespace PatternGraph
variable {g : PatternGraph} {m n : Nat}

/-- A class has an edge to a root. -/
def Leads (g : PatternGraph) (n m : Nat) : Prop := ∃ l, g.target? n l = some m

theorem leads_iff : g.Leads n m ↔ m ∈ (g.edgesOf n).values.map g.find := by
  simp only [Leads, target?, NameMap.values, List.map_map, List.mem_map, Function.comp_apply,
    Option.map_eq_some_iff, NameMap.get?_eq_some_iff, Prod.exists]

theorem mem_incoming : (m, n) ∈ g.incoming ↔ n ∈ g.roots ∧ g.Leads n m := by
  simp only [incoming, leads_iff, List.mem_flatMap, List.mem_map, Prod.mk.injEq]
  constructor
  · rintro ⟨root, hroot, target, htarget, rfl, rfl⟩
    exact ⟨hroot, target, htarget, rfl⟩
  · rintro ⟨hroot, target, htarget, rfl⟩
    exact ⟨n, hroot, target, htarget, rfl, rfl⟩

/-- An ambiguous root can be reached. -/
def Undecided (g : PatternGraph) (n : Nat) : Prop :=
  ∃ m, Relation.ReflTransGen g.Leads n m ∧ g.isAmbiguous m

theorem Undecided.head (hlead : g.Leads n m) (h : g.Undecided m) : g.Undecided n := by
  obtain ⟨k, hreach, hk⟩ := h
  exact ⟨k, .head hlead hreach, hk⟩

/-- Each root is on the stack or not tainted when the search starts. -/
theorem left_ambiguous (g : PatternGraph) : Tainting.left g.roots
    ⟨(g.roots.filter g.isAmbiguous).reverse, g.roots.filter g.isAmbiguous⟩ = g.roots.length := by
  have hrest : g.roots.filter (· ∉ g.roots.filter g.isAmbiguous) =
      g.roots.filter (!g.isAmbiguous ·) :=
    List.filter_congr fun n hn => by simp [hn]
  rw [Tainting.left, hrest, List.length_reverse]
  exact (List.length_eq_length_filter_add g.isAmbiguous).symm

section Reaching
variable (hg : g.Grounded)
include hg

theorem Grounded.mem_roots_of_leads (h : g.Leads n m) : m ∈ g.roots := by
  obtain ⟨l, hl⟩ := h
  exact hg.target_mem_roots hl

/-- The roots that are tainted in the end are those from which an ambiguous root can be reached. -/
theorem Grounded.mem_taintedRoots_iff (hn : n ∈ g.roots) :
    n ∈ g.taintedRoots ↔ g.Undecided n := by
  constructor
  · have hambiguous : ∀ n ∈ g.roots.filter g.isAmbiguous, g.Undecided n := fun n hn =>
      ⟨n, .refl, (List.mem_filter.1 hn).2⟩
    refine Tainting.run_induction (fun e he hundecided => ?_) hambiguous (fun n hn => ?_) n
    · exact hundecided.head (mem_incoming.1 he).2
    · exact hambiguous n (List.mem_reverse.1 hn)
  · rintro ⟨m, hreach, hm⟩
    -- The ambiguous root is tainted from the start, and the search follows the path back from it.
    induction hreach using Relation.ReflTransGen.head_induction_on with
    | refl => exact Tainting.subset_run (List.mem_filter.2 ⟨hn, hm⟩)
    | head hlead _ ih =>
      have htainted := ih (hg.mem_roots_of_leads hlead)
      refine Tainting.run_closed (fun e he => (mem_incoming.1 he).1) g.left_ambiguous.le ?_ _
        (mem_incoming.2 ⟨hn, hlead⟩) htainted
      exact fun e _ he => .inl (List.mem_reverse.2 he)

/-- The singletons are the closed roots and the vectors from which no ambiguous root can be reached.
-/
theorem Grounded.mem_singletons_iff : n ∈ g.singletons ↔ n ∈ g.roots ∧
    (g.kind n = .closedProduct ∨ g.kind n = .closedUnion ∨ g.kind n = .vector) ∧
    ¬g.Undecided n := by
  unfold singletons
  rw [List.mem_filter, Bool.and_eq_true, decide_eq_true_eq]
  refine and_congr_right fun hn => ?_
  rw [hg.mem_taintedRoots_iff hn, and_comm]
  cases g.kind n <;> simp

end Reaching

section Exactness

theorem isAmbiguous_iff : g.isAmbiguous n ↔
    g.kind n ∈ [.unconstrained, .openProduct, .openUnion, .closedUntyped] ∨
      g.kind n = .vector ∧ g.target? n Text.vectorMember = none := by
  unfold isAmbiguous
  cases g.kind n <;> simp

/-- However its forest was built, a graph is grounded if its edges lead to nodes. -/
theorem grounded_of_grown (hforest : g.forest.Grown)
    (htargets : ∀ n < g.edges.size, ∀ d ∈ (g.ownEdges n).values, d < g.size) : g.Grounded := by
  have hordered := hforest.faithful
  exact grounded_iff.2
    ⟨hordered.parents_size, fun i _ p hp => hordered.younger i p hp, htargets⟩

/-- If its edges lead to nodes, the singletons of a graph are, in ascending order and without
repetition, the closed roots of known constructor and the vectors from which no root can be reached
that is open, of unknown constructor, or a vector without members. -/
theorem Grounded.singletons_exact (hg : g.Grounded) :
    g.singletons.Pairwise (· < ·) ∧ ∀ n, n ∈ g.singletons ↔
      (n < g.size ∧ g.forest.isRoot n) ∧
      g.kind n ∈ [.closedProduct, .closedUnion, .vector] ∧
      ¬∃ m, Relation.ReflTransGen g.Leads n m ∧
        (g.kind m ∈ [.unconstrained, .openProduct, .openUnion, .closedUntyped] ∨
          g.kind m = .vector ∧ g.target? m Text.vectorMember = none) := by
  refine ⟨(List.pairwise_lt_range.filter _).filter _, fun n => ?_⟩
  rw [hg.mem_singletons_iff, mem_roots_iff, PatternForest.isRoot, Option.isNone_iff_eq_none]
  simp only [Undecided, isAmbiguous_iff, List.mem_cons, List.not_mem_nil, or_false]

/-- Lists and vectors of lists, beside streams of unknown content and a pair with a vector of
unknown content. -/
def mixedLists : PatternGraph where
  forest := [PatternForest.Call.add (.bound "DBO") none, .add .unconstrained none,
    .add .closedUnion none, .link .closedUnion "merge" [1, 2], .add .unconstrained none,
    .add .closedProduct none, .add .vector none, .add .vector none,
    .add .closedProduct none].foldl PatternForest.after {}
  edges := #[∅, ∅, .ofList [("next", 1), ("nil", 0)], .ofList [("next", 1), ("nil", 0)], ∅,
    .ofList [("head", 4), ("tail", 5)], .ofList [("vector-member", 2)], ∅,
    .ofList [("left", 6), ("right", 7)]]
  bound := .ofList [("DBO", 0)]

theorem mixedLists_grounded : mixedLists.Grounded :=
  grounded_of_grown ⟨_, by decide, rfl⟩ (by decide)

theorem Grounded.singletons_exact_mixedLists : mixedLists.Grounded ∧
    mixedLists.singletons = [3, 6] ∧
    ¬∃ m, Relation.ReflTransGen mixedLists.Leads 6 m ∧
      (mixedLists.kind m ∈ [.unconstrained, .openProduct, .openUnion, .closedUntyped] ∨
        mixedLists.kind m = .vector ∧ mixedLists.target? m Text.vectorMember = none) := by
  have hsingletons : mixedLists.singletons = [3, 6] := by decide
  obtain ⟨-, hexact⟩ := Grounded.singletons_exact mixedLists_grounded
  have hvector : 6 ∈ mixedLists.singletons := by simp [hsingletons]
  exact ⟨mixedLists_grounded, hsingletons, ((hexact 6).1 hvector).2.2⟩

end Exactness

end PatternGraph

end StructuralTyping
