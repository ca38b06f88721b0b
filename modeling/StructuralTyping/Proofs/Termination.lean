import StructuralTyping.Proofs.InferenceRun

/-!
# Inference ends

Binding codes, merging classes and solving constraints are recursions that are given a bound. None
of them ever goes beyond it, and none would do anything else if it were larger: the bound says how
long the recursion can take and has no part in what it does. The measure of binding a code is the
number of codes that have no pattern yet, that of merging the number of classes, and that of solving
the distance of the graph from one that no round changes.
-/
namespace StructuralTyping

open PatternGraph Build

namespace Build
variable {α : Type} {run : Nat → Build α} {bound : Nat} {g : PatternGraph}

/-- A recursion does not go beyond its bound, and with any larger one it ends alike. -/
structure EndsWithin (run : Nat → Build α) (bound : Nat) (g : PatternGraph) : Prop where
  not_exhausted : ∀ g', run bound g ≠ .error .exhausted g'
  stable : ∀ fuel, bound ≤ fuel → run fuel g = run bound g

theorem endsWithin_of_outcome {ok : α → PatternGraph → Prop}
    (happrox : ∀ n, Approximates (run n) (run (n + 1)))
    (h : Outcome (run bound) g ok fun e _ => e ≠ .exhausted) : EndsWithin run bound g := by
  have hne (g' : PatternGraph) : run bound g ≠ .error .exhausted g' :=
    fun hrun => h.of_error hrun rfl
  exact ⟨hne, fun fuel hle => ((approximates_of_le happrox hle).eq hne).symm⟩

theorem bindCode_endsWithin {repo : Repository} (hg : g.Formed) (name : String) :
    EndsWithin (bindCode repo · name) (repo.size + repo.aliases.size + 1) g :=
  endsWithin_of_outcome (bindCode_approximates repo name) (boundNode_outcome hg)

theorem mergeClasses_endsWithin {repo : Repository} {ids : List Nat} (hg : g.Formed)
    (hids : ∀ id ∈ ids, id < g.size) (rule : String) :
    EndsWithin (mergeClasses repo rule · ids) g.mergeBound g :=
  endsWithin_of_outcome (mergeClasses_approximates repo rule ids)
    (mergeClasses_outcome hg hids (Nat.lt_succ_of_le PatternForest.card_classes_le))

theorem rounds_endsWithin {repo : Repository} {constraints : List Constraint} (hg : g.Formed)
    (hwithin : ∀ c ∈ constraints, c.demand.Within g.size) :
    EndsWithin (rounds repo constraints) (roundBound constraints g) g :=
  endsWithin_of_outcome (rounds_approximates repo constraints)
    (rounds_outcome g.size hg hwithin PatternForest.card_classes_le distance_lt_roundBound)

end Build

namespace Relations
variable {repo : Repository} {rels : Relations} {spans : SpanTable} {options : InferenceOptions}

theorem forM_ne_error {α ε : Type} {f : α → Except ε Unit} {todo : List α} {e : ε}
    (h : ∀ a ∈ todo, f a ≠ .error e) : todo.forM f ≠ .error e := by
  intro herror
  rcases forM_cases f todo with ⟨a, ha, e', he, hforM⟩ | ⟨-, hok⟩
  · obtain rfl := Except.error.inj (hforM.symm.trans herror)
    exact h a ha he
  · cases hok.symm.trans herror

theorem checkClosed_ne_exhausted {g : PatternGraph} {sites : List (String × List Site)} :
    g.checkClosed sites ≠ .error .exhausted := by
  refine forM_ne_error fun e _ => ?_
  dsimp only
  split
  · simp
  · simp

theorem infer_ne_exhausted : (rels.infer repo spans options).1 ≠ .error .exhausted := by
  unfold infer
  dsimp only
  split
  case h_1 e hsolved =>
    rintro ⟨rfl⟩
    exact solved_ne_exhausted hsolved
  case h_2 g hsolved =>
    obtain ⟨constraints, hsolves⟩ := exists_solves hsolved
    have hg := Evolves.formed_of_empty hsolves.evolves
    split
    case h_1 e _ _ hpromoted =>
      rintro ⟨rfl⟩
      split_ifs at hpromoted
      · exact promote_ne_exhausted hg (congrArg Prod.fst hpromoted)
      · cases hpromoted
    case h_2 =>
      split
      case h_1 e hclosed =>
        rintro ⟨rfl⟩
        split_ifs at hclosed
        · exact checkClosed_ne_exhausted hclosed
      · simp

/-- Inference ends, for all relations and with every repository. Binding a code and merging classes
end within their bounds on every well-formed graph, as all graphs are that operations lead to, and
so do the rounds in which the constraints of the relations are solved. Hence inference, which goes
on with operations until it returns, is never exhausted. -/
theorem inference_terminates (repo : Repository) (rels : Relations) (spans : SpanTable)
    (options : InferenceOptions) :
    (∀ g : PatternGraph, g.Formed →
      (∀ name, EndsWithin (bindCode repo · name) (repo.size + repo.aliases.size + 1) g) ∧
      ∀ rule ids, (∀ id ∈ ids, id < g.size) →
        EndsWithin (mergeClasses repo rule · ids) g.mergeBound g) ∧
    (∀ constraints g,
      siteConstraints repo rels.ends (rels.allSites spans) (.blank rels.endCount) =
        .ok constraints g →
      EndsWithin (rounds repo constraints) (roundBound constraints g) g) ∧
    (rels.infer repo spans options).1 ≠ .error .exhausted := by
  refine ⟨fun g hg => ⟨fun name => bindCode_endsWithin hg name, fun rule ids hids =>
    mergeClasses_endsWithin hg hids rule⟩, fun constraints g hrun => ?_, infer_ne_exhausted⟩
  obtain ⟨hevolves, hwithin, -⟩ := (rels.allSites_constraints_outcome repo spans).of_ok hrun
  exact rounds_endsWithin (Evolves.formed_of_empty hevolves) hwithin

/-- A relation that drops one element of a stream after the other. -/
def dropAll : Relations := .ofList [("drop", .comp [.dot "tail", .ref "drop"])]

/-- What the relation demands of the six ends of its three nodes. -/
def dropAllConstraints : List Constraint :=
  [⟨"composition", .same [0, 1], none⟩, ⟨"composition", .same [2, 3], none⟩,
    ⟨"composition", .same [4, 5], none⟩, ⟨"dot", .edge 1 "tail" 2, none⟩,
    ⟨"reference", .same [3, 0], none⟩, ⟨"reference", .same [4, 5], none⟩]

theorem inference_terminates_dropAll : streams.Formed ∧ (∀ id ∈ [0, 3], id < streams.size) ∧
    EndsWithin (bindCode .ofStream · "S") 5 streams ∧
    EndsWithin (mergeClasses .ofStream "merge" · [0, 3]) 5 streams ∧
    EndsWithin (rounds .ofStream dropAllConstraints) 2107 (.blank 6) ∧
    (dropAll.infer .ofStream ∅ {}).1 ≠ .error .exhausted := by
  have hstreams := (streams_built.settled Repository.ofStream_reachable.consistent).formed
  obtain ⟨hgraphs, hrounds, hinfer⟩ := inference_terminates .ofStream dropAll ∅ {}
  obtain ⟨hcodes, hclasses⟩ := hgraphs streams hstreams
  refine ⟨hstreams, by decide, hcodes "S", hclasses "merge" [0, 3] (by decide), ?_, hinfer⟩
  exact hrounds dropAllConstraints (.blank 6) rfl

end Relations

end StructuralTyping
