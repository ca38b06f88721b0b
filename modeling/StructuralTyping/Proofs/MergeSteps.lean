import Mathlib.Logic.Relation
import StructuralTyping.Proofs.CodePatterns
import StructuralTyping.Proofs.ShapeOrder

/-!
# Merging classes step by step

Merging is a matter of lists of nodes that are yet to become one class. A step takes the first list:
if its nodes are of one class, nothing happens, otherwise their classes are put below a new root,
and the targets that meet there are to become one class next. The recursion that merges classes
takes such steps until the lists it was given are done, and each of them that changes the graph
leaves fewer classes.
-/
namespace StructuralTyping

namespace PatternGraph
variable {g g' : PatternGraph} {repo : Repository} {kind : PatternKind} {rule : String}
  {ids roots : List Nat} {pending pending' rest : List (List Nat)} {joined : Shape} {c : String}
  {s t : PatternGraph × List (List Nat)} {e : PatternError}

/-- One step with the first of the lists of nodes that are to become one class. -/
inductive MergeStep (repo : Repository) (rule : String) :
    PatternGraph × List (List Nat) → PatternGraph × List (List Nat) → Prop
  | same {g : PatternGraph} {ids : List Nat} {rest : List (List Nat)}
      (hsame : (ascending (ids.map g.find)).length ≤ 1) :
      MergeStep repo rule (g, ids :: rest) (g, rest)
  | join {g : PatternGraph} {ids : List Nat} {rest : List (List Nat)} {roots : List Nat}
      {joined : Shape} (hroots : roots = ascending (ids.map g.find)) (hseveral : 2 ≤ roots.length)
      (hjoin : Shape.IsJoin repo (roots.map g.shape) joined)
      (hconflict : g.forest.conflict joined.kind roots = none) :
      MergeStep repo rule (g, ids :: rest)
        (g.joinRoots repo joined.kind rule roots,
          meetings (g.targets repo joined.kind roots) ++ rest)

/-- Any number of steps. -/
abbrev MergeRun (repo : Repository) (rule : String) :
    PatternGraph × List (List Nat) → PatternGraph × List (List Nat) → Prop :=
  Relation.ReflTransGen (MergeStep repo rule)

/-- The forest lets roots be put below a root of the kind, and the kind, if it is a code, goes by
its canonical name. -/
def Joinable (repo : Repository) (g : PatternGraph) (kind : PatternKind) (roots : List Nat) :
    Prop := g.forest.conflict kind roots = none ∧ ∀ c, kind = .bound c → repo.canonical c = some c

/-- The classes of some nodes can be merged: their shapes go together, and so do their codes. -/
def Mergeable (repo : Repository) (g : PatternGraph) (ids : List Nat) : Prop :=
  ∀ first second rest, ascending (ids.map g.find) = first :: second :: rest →
    ∃ joined, g.mergeShapes repo (g.shape first) (second :: rest) = .ok joined ∧
      Joinable repo g joined.kind (first :: second :: rest)

/-- Steps lead to nodes whose classes cannot be merged. -/
def GetsStuck (repo : Repository) (rule : String) (s : PatternGraph × List (List Nat)) : Prop :=
  ∃ g ids rest, MergeRun repo rule s (g, ids :: rest) ∧ ¬Mergeable repo g ids

/-- How merging the classes of some nodes fails at once, and the graph that is left: as it is if two
shapes do not go together, maybe with more codes if codes do not. -/
inductive Refused (repo : Repository) (rule : String) (g : PatternGraph) (ids : List Nat) :
    PatternError → PatternGraph → Prop
  | shapes {first second : Nat} {others : List Nat} {l r : Shape}
      (hroots : ascending (ids.map g.find) = first :: second :: others)
      (hshapes : g.mergeShapes repo (g.shape first) (second :: others) = .error (l, r)) :
      Refused repo rule g ids (.structuralMismatch rule l.text r.text none) g
  | codes {first second : Nat} {others : List Nat} {joined : Shape} {e : PatternError}
      {g' : PatternGraph} (hroots : ascending (ids.map g.find) = first :: second :: others)
      (hjoined : g.mergeShapes repo (g.shape first) (second :: others) = .ok joined)
      (hcodes : ¬Joinable repo g joined.kind (first :: second :: others))
      (hbound : e ≠ .exhausted) : Refused repo rule g ids e g'

/-- Steps lead to nodes whose classes are not merged. -/
def Fails (repo : Repository) (rule : String) (s : PatternGraph × List (List Nat))
    (e : PatternError) (g' : PatternGraph) : Prop :=
  ∃ g ids rest, MergeRun repo rule s (g, ids :: rest) ∧ Refused repo rule g ids e g'

/-- A well-formed graph with lists of its nodes. -/
structure Ready (s : PatternGraph × List (List Nat)) : Prop where
  formed : s.1.Formed
  pending_lt : ∀ ids ∈ s.2, ∀ id ∈ ids, id < s.1.size

theorem Refused.not_mergeable (h : Refused repo rule g ids e g') : ¬Mergeable repo g ids := by
  intro hmergeable
  cases h with
  | shapes hroots hshapes =>
    obtain ⟨joined, hjoined, -⟩ := hmergeable _ _ _ hroots
    cases hshapes.symm.trans hjoined
  | codes hroots hjoined hcodes =>
    obtain ⟨joined, hjoined', hjoinable⟩ := hmergeable _ _ _ hroots
    obtain rfl := Except.ok.inj (hjoined.symm.trans hjoined')
    exact hcodes hjoinable

theorem Refused.ne_exhausted (h : Refused repo rule g ids e g') : e ≠ .exhausted := by
  cases h with
  | shapes => simp
  | codes _ _ _ hbound => exact hbound

theorem Fails.of_run (hrun : MergeRun repo rule s t) (h : Fails repo rule t e g') :
    Fails repo rule s e g' := by
  obtain ⟨g, ids, rest, hrest, hrefused⟩ := h
  exact ⟨g, ids, rest, hrun.trans hrest, hrefused⟩

theorem Fails.getsStuck (h : Fails repo rule s e g') : GetsStuck repo rule s := by
  obtain ⟨g, ids, rest, hrun, hrefused⟩ := h
  exact ⟨g, ids, rest, hrun, hrefused.not_mergeable⟩

theorem Fails.ne_exhausted (h : Fails repo rule s e g') : e ≠ .exhausted := by
  obtain ⟨_, _, _, _, hrefused⟩ := h
  exact hrefused.ne_exhausted

theorem ready_nil_iff : Ready (g, []) ↔ g.Formed := ⟨fun h => h.formed, fun h => ⟨h, by simp⟩⟩

theorem ready_singleton (hg : g.Formed) (hids : ∀ id ∈ ids, id < g.size) : Ready (g, [ids]) :=
  ⟨hg, by simpa using hids⟩

theorem Ready.head_lt (h : Ready (g, ids :: rest)) : ∀ id ∈ ids, id < g.size :=
  h.pending_lt ids List.mem_cons_self

theorem Ready.tail (h : Ready (g, ids :: rest)) : Ready (g, rest) :=
  ⟨h.formed, fun ids' hids' => h.pending_lt ids' (List.mem_cons_of_mem _ hids')⟩

theorem Ready.append_left (h : Ready (g, pending ++ rest)) : Ready (g, pending) :=
  ⟨h.formed, fun ids' hids' => h.pending_lt ids' (List.mem_append_left _ hids')⟩

section Steps

/-- A join is a code only if one of its parts is. -/
theorem exists_bound_of_isJoin (hjoin : Shape.IsJoin repo (roots.map g.shape) joined)
    (hroots : g.AreRoots roots) (hc : joined.kind = .bound c) :
    ∃ r ∈ roots, (g.node r).kind = .bound c := by
  rcases hjoin.kind with ⟨s, hs, hk⟩ | hk | hk
  · obtain ⟨r, hr, rfl⟩ := List.mem_map.1 hs
    refine ⟨r, hr, ?_⟩
    rw [← kind_of_root (hroots r hr).2, ← hc, hk]
    rfl
  all_goals
    rw [hk] at hc
    cases hc

/-- A join of roots that are codes is the code. -/
theorem conflict_eq_none_of_isJoin (hroots : g.AreRoots roots)
    (hjoin : Shape.IsJoin repo (roots.map g.shape) joined) :
    g.forest.conflict joined.kind roots = none := by
  refine PatternForest.conflict_eq_none_iff.2 fun r hr d hkind => ?_
  have hbelow := hjoin.below _ (List.mem_map_of_mem hr)
  have hk : (g.shape r).kind = .bound d := (kind_of_root (hroots r hr).2).trans hkind
  simpa [Shape.Keeps, hk] using hbelow.keeps

theorem Formed.joinRoots_of_isJoin (hg : g.Formed) (hroots : g.AreRoots roots)
    (hjoin : Shape.IsJoin repo (roots.map g.shape) joined)
    (hconflict : g.forest.conflict joined.kind roots = none) :
    (g.joinRoots repo joined.kind rule roots).Formed :=
  hg.joinRoots hroots hconflict fun _ hc => exists_bound_of_isJoin hjoin hroots hc

theorem Formed.lt_size_of_mem_meetings (hg : g.Formed)
    (h : ids ∈ meetings (g.targets repo kind roots)) : ∀ id ∈ ids, id < g.size := by
  intro id hid
  obtain ⟨label, rfl⟩ := exists_label_of_mem_meetings h
  obtain ⟨root, -, l, hl, -⟩ := mem_arrivals.1 hid
  exact hg.targets_lt root l id hl

theorem MergeStep.ready (h : MergeStep repo rule s t) (hs : Ready s) : Ready t := by
  cases h with
  | same hsame => exact hs.tail
  | join hroots hseveral hjoin hconflict =>
    have hare := hs.formed.areRoots_of_eq hs.head_lt hroots
    refine ⟨hs.formed.joinRoots_of_isJoin hare hjoin hconflict, fun ids' hids' id hid => ?_⟩
    rw [size_joinRoots]
    rcases List.mem_append.1 hids' with hmeet | hrest
    · exact Nat.lt_succ_of_lt (hs.formed.lt_size_of_mem_meetings hmeet id hid)
    · exact Nat.lt_succ_of_lt (hs.tail.pending_lt ids' hrest id hid)

theorem MergeStep.size_le (h : MergeStep repo rule s t) : s.1.size ≤ t.1.size := by
  cases h with
  | same hsame => exact Nat.le_refl _
  | join =>
    dsimp only
    rw [size_joinRoots]
    omega

/-- The nodes that there are say what they said. -/
theorem MergeStep.node_eq {n : Nat} (h : MergeStep repo rule s t) (hn : n < s.1.size) :
    t.1.node n = s.1.node n := by
  cases h with
  | same hsame => rfl
  | join => rw [node_joinRoots, if_neg (Nat.ne_of_lt hn)]

theorem MergeStep.ownEdges_eq {n : Nat} (h : MergeStep repo rule s t) (hs : Ready s)
    (hn : n < s.1.size) : t.1.ownEdges n = s.1.ownEdges n := by
  cases h with
  | same hsame => rfl
  | join => rw [ownEdges_joinRoots hs.formed.edges_size, if_neg (Nat.ne_of_lt hn)]

/-- Nodes of one class stay in one class. -/
theorem MergeStep.find_eq {a b : Nat} (h : MergeStep repo rule s t) (hs : Ready s)
    (hab : s.1.find a = s.1.find b) : t.1.find a = t.1.find b := by
  cases h with
  | same hsame => exact hab
  | join hroots hseveral hjoin hconflict =>
    exact hs.formed.find_joinRoots_eq (hs.formed.areRoots_of_eq hs.head_lt hroots) hab

theorem MergeStep.bound_eq (h : MergeStep repo rule s t) : t.1.bound = s.1.bound := by
  cases h with
  | same hsame => rfl
  | join => rfl

/-- Putting several classes below one root leaves fewer classes. -/
theorem Formed.card_classes_joinRoots_lt (hg : g.Formed) (hids : ∀ id ∈ ids, id < g.size)
    (hroots : roots = ascending (ids.map g.find)) (hseveral : 2 ≤ roots.length) :
    (g.joinRoots repo kind rule roots).forest.classes.card < g.forest.classes.card := by
  have hare := hg.areRoots_of_eq hids hroots
  have hcard : (g.joinRoots repo kind rule roots).forest.classes.card + roots.length = _ :=
    hg.card_classes_joinRoots hare (hroots ▸ nodup_ascending _)
  omega

/-- A step that changes the graph leaves fewer classes. -/
theorem MergeStep.eq_or_fewer (h : MergeStep repo rule s t) (hs : Ready s) :
    t.1 = s.1 ∨ t.1.forest.classes.card < s.1.forest.classes.card := by
  cases h with
  | same hsame => exact .inl rfl
  | join hroots hseveral hjoin hconflict =>
    exact .inr (hs.formed.card_classes_joinRoots_lt hs.head_lt hroots hseveral)

theorem MergeRun.ready (h : MergeRun repo rule s t) (hs : Ready s) : Ready t := by
  induction h with
  | refl => exact hs
  | tail _ hstep ih => exact hstep.ready ih

theorem MergeRun.size_le (h : MergeRun repo rule s t) : s.1.size ≤ t.1.size := by
  induction h with
  | refl => exact Nat.le_refl _
  | tail _ hstep ih => exact ih.trans hstep.size_le

theorem MergeRun.node_eq {n : Nat} (h : MergeRun repo rule s t) (hn : n < s.1.size) :
    t.1.node n = s.1.node n := by
  induction h with
  | refl => rfl
  | tail hrun hstep ih => rw [hstep.node_eq (hn.trans_le (MergeRun.size_le hrun)), ih]

theorem MergeRun.ownEdges_eq {n : Nat} (h : MergeRun repo rule s t) (hs : Ready s)
    (hn : n < s.1.size) : t.1.ownEdges n = s.1.ownEdges n := by
  induction h with
  | refl => rfl
  | tail hrun hstep ih =>
    rw [hstep.ownEdges_eq (MergeRun.ready hrun hs) (hn.trans_le (MergeRun.size_le hrun)), ih]

theorem MergeRun.find_eq {a b : Nat} (h : MergeRun repo rule s t) (hs : Ready s)
    (hab : s.1.find a = s.1.find b) : t.1.find a = t.1.find b := by
  induction h with
  | refl => exact hab
  | tail hrun hstep ih => exact hstep.find_eq (MergeRun.ready hrun hs) ih

theorem MergeRun.bound_eq (h : MergeRun repo rule s t) : t.1.bound = s.1.bound := by
  induction h with
  | refl => rfl
  | tail _ hstep ih => rw [hstep.bound_eq, ih]

theorem MergeRun.eq_or_fewer (h : MergeRun repo rule s t) (hs : Ready s) :
    t.1 = s.1 ∨ t.1.forest.classes.card < s.1.forest.classes.card := by
  induction h with
  | refl => exact .inl rfl
  | tail hrun hstep ih =>
    rcases hstep.eq_or_fewer (MergeRun.ready hrun hs) with heq | hlt
    · rwa [heq]
    · refine .inr (hlt.trans_le ?_)
      rcases ih with heq | hlt'
      · rw [heq]
      · exact hlt'.le

theorem MergeRun.card_classes_le (h : MergeRun repo rule s t) (hs : Ready s) :
    t.1.forest.classes.card ≤ s.1.forest.classes.card := by
  rcases MergeRun.eq_or_fewer h hs with heq | hlt
  · rw [heq]
  · exact hlt.le

end Steps

end PatternGraph

namespace Build
variable {g g' : PatternGraph} {repo : Repository} {kind : PatternKind} {rule : String}
  {ids roots : List Nat} {fuel : Nat}

open PatternGraph

/-- The root of a code adds no root to those of a class of the code, unless the code goes by another
name, which is refused when the roots are linked. -/
theorem codeRoots_outcome (hg : g.Formed) (hroots : g.AreRoots roots)
    (hcode : ∀ c, kind = .bound c → ∃ r ∈ roots, (g.node r).kind = .bound c) :
    Outcome (codeRoots repo kind) g
      (fun more g' => more.filter (· ∉ roots) = [] ∧ g' = g ∨
        (∃ name, kind = .bound name ∧ repo.canonical name ≠ some name) ∧
          ∃ r ∈ more, ∃ c, (g'.node r).kind = .bound c ∧ kind ≠ .bound c)
      fun e _ => e ≠ .exhausted ∧ ∃ name, kind = .bound name ∧ repo.canonical name ≠ some name := by
  cases kind with
  | bound name =>
    obtain ⟨r, hr, hkind⟩ := hcode name rfl
    rw [codeRoots, outcome_bind]
    by_cases hname : repo.canonical name = some name
    · obtain ⟨id, hid⟩ := NameMap.contains_iff.1 (hg.recorded r name hkind)
      have hbound : boundNode repo name g = .ok id g := bindCode_of_recorded hname hid
      have hfind := hg.find_recorded hid (hroots r hr).2 hkind
      rw [outcome_of_eq_ok hbound, outcome_bind, outcome_get, outcome_pure]
      left
      simp [hfind, hr]
    · refine (boundNode_outcome hg).imp (fun id g' hb => ?_) fun _ _ h => ⟨h, name, rfl, hname⟩
      simp only [outcome_bind, outcome_get, outcome_pure]
      obtain ⟨c, hc, hid⟩ := hb.recorded
      right
      refine ⟨⟨name, rfl, hname⟩, g'.find id, by simp, c,
        hb.formed.kind_of_bound (hb.formed.codes c id hid), ?_⟩
      rintro ⟨rfl⟩
      exact hname hc
  | _ => exact .inl ⟨rfl, rfl⟩

theorem linkRoots_outcome : Outcome (linkRoots repo kind rule roots) g
    (fun met g' => g.forest.conflict kind roots = none ∧ g' = g.joinRoots repo kind rule roots ∧
      met = meetings (g.targets repo kind roots))
    fun e _ => e ≠ .exhausted ∧ g.forest.conflict kind roots ≠ none := by
  rw [linkRoots, outcome_bind, outcome_get]
  simp only [PatternForest.link]
  cases hconflict : g.forest.conflict kind roots with
  | some c => simp
  | none => exact ⟨rfl, rfl, rfl⟩

/-- The roots of one class are put below a new root, or they cannot be joined. The root of the code
would only be a further one if the code went by another name. -/
theorem join_outcome (repo : Repository) (rule : String) (hg : g.Formed)
    (hroots : g.AreRoots roots)
    (hcode : ∀ c, kind = .bound c → ∃ r ∈ roots, (g.node r).kind = .bound c) :
    Outcome (do
      let more ← codeRoots repo kind
      linkRoots repo kind rule (roots ++ more.filter (· ∉ roots))) g
      (fun met g' => g.forest.conflict kind roots = none ∧
        g' = g.joinRoots repo kind rule roots ∧ met = meetings (g.targets repo kind roots))
      fun e _ => e ≠ .exhausted ∧ ¬Joinable repo g kind roots := by
  have hname (h : ∃ name, kind = .bound name ∧ repo.canonical name ≠ some name) :
      ¬Joinable repo g kind roots := by
    obtain ⟨name, hkind, hne⟩ := h
    exact fun hjoinable => hne (hjoinable.2 name hkind)
  rw [outcome_bind]
  refine (codeRoots_outcome hg hroots hcode).imp (fun more g₁ hmore => ?_)
    fun _ _ h => ⟨h.1, hname h.2⟩
  rcases hmore with ⟨hnone, rfl⟩ | ⟨hother, r, hr, c, hkind, hne⟩
  · rw [hnone, List.append_nil]
    exact linkRoots_outcome.imp (fun _ _ h => h) fun _ _ h => ⟨h.1, fun hj => h.2 hj.1⟩
  · refine linkRoots_outcome.imp (fun _ _ hlink => ?_) fun _ _ h => ⟨h.1, hname hother⟩
    refine absurd (PatternForest.conflict_eq_none_iff.1 hlink.1 r ?_ c hkind) hne
    by_cases hin : r ∈ roots
    · exact List.mem_append_left _ hin
    · exact List.mem_append_right _ (List.mem_filter.2 ⟨hr, by simpa using hin⟩)

/-- The given nodes are one class in the end, reached by steps, and the answer tells whether there
were several classes. -/
structure Merges (repo : Repository) (rule : String) (ids : List Nat) (g : PatternGraph)
    (changed : Bool) (g' : PatternGraph) : Prop where
  run : ∀ rest, MergeRun repo rule (g, ids :: rest) (g', rest)
  unchanged : changed = false → g' = g
  fewer : changed = true → g'.forest.classes.card < g.forest.classes.card

theorem Merges.formed {changed : Bool} (h : Merges repo rule ids g changed g') (hg : g.Formed)
    (hids : ∀ id ∈ ids, id < g.size) : g'.Formed :=
  ((h.run []).ready (ready_singleton hg hids)).formed

theorem merges_same (h : (ascending (ids.map g.find)).length ≤ 1) :
    Merges repo rule ids g false g where
  run _ := .single (.same h)
  unchanged _ := rfl
  fewer h := by cases h

/-- Merging the classes of each list of nodes, if that is done by steps for one list. -/
theorem forM_merges_outcome {merge : List Nat → Build Bool} {pending : List (List Nat)}
    {bound : Nat}
    (hmerge : ∀ {g ids}, g.Formed → (∀ id ∈ ids, id < g.size) → g.forest.classes.card < bound →
      Outcome (merge ids) g (Merges repo rule ids g)
        fun e g' => ∀ rest, Fails repo rule (g, ids :: rest) e g')
    (hready : Ready (g, pending)) (hbound : g.forest.classes.card < bound) :
    Outcome (pending.forM fun ids => do let _ ← merge ids) g
      (fun _ g' => ∀ rest, MergeRun repo rule (g, pending ++ rest) (g', rest))
      fun e g' => ∀ rest, Fails repo rule (g, pending ++ rest) e g' := by
  refine outcome_forM (I := fun todo g' =>
    ∀ rest, MergeRun repo rule (g, pending ++ rest) (g', todo ++ rest)) ?_ (fun _ => .refl)
    fun _ h => h
  intro ids todo g' hrun
  have hrun' := hrun []
  simp only [List.append_nil] at hrun'
  have hready' := hrun'.ready hready
  have hcard : g'.forest.classes.card ≤ _ := hrun'.card_classes_le hready
  rw [outcome_bind]
  refine (hmerge hready'.formed hready'.head_lt (hcard.trans_lt hbound)).imp
    (fun _ g'' h rest => ?_) fun _ _ h rest => .of_run (hrun rest) (h _)
  exact (hrun rest).trans (h.run _)

/-- Merging classes ends with a merged graph, or fails where steps lead to classes that cannot be
merged. -/
theorem mergeClasses_merges_or_fails (hg : g.Formed) (hids : ∀ id ∈ ids, id < g.size)
    (hfuel : g.forest.classes.card < fuel) :
    Outcome (mergeClasses repo rule fuel ids) g (Merges repo rule ids g)
      fun e g' => ∀ rest, Fails repo rule (g, ids :: rest) e g' := by
  induction fuel generalizing g ids with
  | zero => omega
  | succ fuel ih =>
    rw [mergeClasses, outcome_bind, outcome_get]
    have hare := hg.areRoots hids
    split
    case h_1 hroots => exact merges_same (by simp [hroots])
    case h_2 hroots => exact merges_same (by simp [hroots])
    case h_3 first rest hseveral hroots =>
      obtain ⟨second, rest, rfl⟩ : ∃ second rest', rest = second :: rest' := by
        cases rest with
        | nil => exact (hseveral rfl).elim
        | cons second rest => exact ⟨second, rest, rfl⟩
      rw [hroots] at hare
      have hfails {e : PatternError} {g' : PatternGraph} (h : Refused repo rule g ids e g')
          (todo : List (List Nat)) : Fails repo rule (g, ids :: todo) e g' :=
        ⟨g, ids, todo, .refl, h⟩
      split
      case h_1 hshapes => exact hfails (.shapes hroots hshapes)
      case h_2 joined hjoined =>
        have hjoin := isJoin_of_mergeShapes hjoined
        have hjoins := join_outcome repo rule hg hare fun c hc =>
          exists_bound_of_isJoin hjoin hare hc
        rw [outcome_bind] at hjoins ⊢
        refine hjoins.imp (fun more g₁ hlinks => ?_) fun _ _ h =>
          hfails (.codes hroots hjoined h.2 h.1)
        rw [outcome_bind]
        refine hlinks.imp (fun met g₂ hlink => ?_) fun _ _ h =>
          hfails (.codes hroots hjoined h.2 h.1)
        obtain ⟨hconflict, rfl, rfl⟩ := hlink
        have hstep (todo : List (List Nat)) : MergeStep repo rule (g, ids :: todo) _ :=
          .join hroots.symm (by simp) hjoin hconflict
        have hready := (hstep []).ready (ready_singleton hg hids)
        have hless : (g.joinRoots repo joined.kind rule
            (first :: second :: rest)).forest.classes.card < g.forest.classes.card :=
          hg.card_classes_joinRoots_lt hids hroots.symm (by simp)
        rw [outcome_bind]
        refine (forM_merges_outcome ih hready.append_left (by omega)).imp (fun _ g₂ hrun => ?_)
          fun _ _ h todo => .of_run (.single (hstep todo)) (h todo)
        refine ⟨fun todo => .head (hstep todo) (hrun todo), by simp, fun _ => ?_⟩
        have hle := (hrun []).card_classes_le hready
        exact hle.trans_lt hless

/-- Merging classes ends with a merged graph, or fails because shapes or codes do not go together.
-/
theorem mergeClasses_outcome (hg : g.Formed) (hids : ∀ id ∈ ids, id < g.size)
    (hfuel : g.forest.classes.card < fuel) :
    Outcome (mergeClasses repo rule fuel ids) g (Merges repo rule ids g)
      fun e _ => e ≠ .exhausted :=
  (mergeClasses_merges_or_fails hg hids hfuel).imp (fun _ _ h => h) fun _ _ h =>
    (h []).ne_exhausted

theorem unify_merges_or_fails (hg : g.Formed) (hids : ∀ id ∈ ids, id < g.size) :
    Outcome (unify repo rule ids) g (Merges repo rule ids g)
      fun e g' => ∀ rest, Fails repo rule (g, ids :: rest) e g' := by
  rw [unify, outcome_bind, outcome_get]
  exact mergeClasses_merges_or_fails hg hids (Nat.lt_succ_of_le PatternForest.card_classes_le)

theorem unify_outcome (hg : g.Formed) (hids : ∀ id ∈ ids, id < g.size) :
    Outcome (unify repo rule ids) g (Merges repo rule ids g) fun e _ => e ≠ .exhausted :=
  (unify_merges_or_fails hg hids).imp (fun _ _ h => h) fun _ _ h => (h []).ne_exhausted

/-- Nodes that no steps lead to stuck classes from are merged without fail. -/
theorem unify_total (hg : g.Formed) (hids : ∀ id ∈ ids, id < g.size)
    (hfree : ¬GetsStuck repo rule (g, [ids])) :
    Outcome (unify repo rule ids) g (Merges repo rule ids g) fun _ _ => False :=
  (unify_merges_or_fails hg hids).imp (fun _ _ h => h) fun _ _ h => hfree (h []).getsStuck

/-- A class gains an edge, or the target of the edge that is there is merged with the new one. -/
inductive AddsEdge (repo : Repository) (rule : String) (source : Nat) (label : String)
    (target : Nat) (g : PatternGraph) : Bool → PatternGraph → Prop
  | merge {present : Nat} {changed : Bool} {g' : PatternGraph}
      (hpresent : (g.edgesOf source).get? ((g.kind source).memberLabel repo label) = some present)
      (hmerges : Merges repo rule [present, target] g changed g') :
      AddsEdge repo rule source label target g changed g'
  | gain (habsent : (g.edgesOf source).get? ((g.kind source).memberLabel repo label) = none)
      (hopen : (g.kind source).isOpen ∨ g.kind source = .vector)
      (hmember : g.kind source = .vector →
        (g.kind source).memberLabel repo label = Text.vectorMember) :
      AddsEdge repo rule source label target g true
        (g.withEdge (g.find source) ((g.kind source).memberLabel repo label) target)

/-- How a class is refused an edge, and the graph that is left: the targets are not merged, or the
class may not gain an edge under the label. -/
inductive RefusesEdge (repo : Repository) (rule : String) (source : Nat) (label : String)
    (target : Nat) (g : PatternGraph) : PatternError → PatternGraph → Prop
  | merge {present : Nat} {e : PatternError} {g' : PatternGraph}
      (hpresent : (g.edgesOf source).get? ((g.kind source).memberLabel repo label) = some present)
      (hfails : ∀ rest, Fails repo rule (g, [present, target] :: rest) e g') :
      RefusesEdge repo rule source label target g e g'
  | closed (habsent : (g.edgesOf source).get? ((g.kind source).memberLabel repo label) = none)
      (hclosed : ¬(g.kind source).isOpen) :
      RefusesEdge repo rule source label target g
        (.structuralMismatch rule (g.shape source).text
          (Shape.text ⟨.unconstrained, .ofList [(g.kind source).memberLabel repo label]⟩) none) g

theorem addEdge_adds_or_refuses {source target : Nat} {label : String} (hg : g.Formed)
    (htarget : target < g.size) :
    Outcome (addEdge repo rule source label target) g (AddsEdge repo rule source label target g)
      (RefusesEdge repo rule source label target g) := by
  rw [addEdge, outcome_bind, outcome_get]
  have hshape : (g.shape source).kind = g.kind source := rfl
  simp only [hshape]
  cases hget : (g.edgesOf source).get? ((g.kind source).memberLabel repo label) with
  | some present =>
    have hpresent := hg.targets_lt _ _ _ hget
    exact (unify_merges_or_fails hg (by simp [hpresent, htarget])).imp (fun _ _ => .merge hget)
      fun _ _ => .merge hget
  | none =>
    dsimp only
    split_ifs with hopen
    · rw [outcome_bind, outcome_setEdge]
      simp only [Bool.or_eq_true, Bool.and_eq_true, decide_eq_true_eq] at hopen
      refine .gain hget (hopen.imp id And.left) fun hkind => ?_
      rw [hkind] at hopen ⊢
      simpa [PatternKind.isOpen] using hopen
    · rw [Bool.or_eq_true, not_or] at hopen
      exact .closed hget hopen.1

theorem addEdge_outcome {source target : Nat} {label : String} (hg : g.Formed)
    (htarget : target < g.size) :
    Outcome (addEdge repo rule source label target) g (AddsEdge repo rule source label target g)
      fun e _ => e ≠ .exhausted := by
  refine (addEdge_adds_or_refuses hg htarget).imp (fun _ _ h => h) fun e _ h => ?_
  cases h with
  | merge _ hfails => exact (hfails []).ne_exhausted
  | closed => simp

theorem mergeClasses_approximates (repo : Repository) (rule : String) (ids : List Nat)
    (fuel : Nat) :
    Approximates (mergeClasses repo rule fuel ids) (mergeClasses repo rule (fuel + 1) ids) := by
  induction fuel generalizing ids with
  | zero => exact fun g => .inr ⟨g, rfl⟩
  | succ fuel ih =>
    rw [mergeClasses, mergeClasses]
    refine (Approximates.refl _).bind fun g => ?_
    split
    · exact .refl _
    · exact .refl _
    · split
      · exact .refl _
      · refine (Approximates.refl _).bind fun _ => (Approximates.refl _).bind fun met => ?_
        refine (Approximates.forM (fun ids' => ?_) met).bind fun _ => .refl _
        exact (ih ids').bind fun _ => .refl _

end Build

end StructuralTyping
