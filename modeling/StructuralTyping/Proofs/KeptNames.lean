import StructuralTyping.Proofs.InferenceSoundness
import StructuralTyping.Proofs.KnownNames

/-!
# Names that inference keeps

A registration answers names for its batch and enters them as aliases. A name that was known before
keeps its meaning unless the batch answers another one for it, or an entry of that name comes to
hide the alias. The batch of a promotion has the local names of its patterns, and so inference can
take away the meaning of a name only if someone declared the local name of a pattern, or a name that
turns out to be canonical.
-/
namespace StructuralTyping

open PatternGraph Build

namespace Repository
variable {repo next : Repository} {codes : Codes} {builtins names : NameMap String} {m c : String}

/-- A name keeps its meaning in a registration exactly if nothing comes to hide it and nothing else
is answered for it. -/
theorem AliasesKnown.canonical_registerWith_iff (hrepo : repo.AliasesKnown)
    (h : repo.registerWith codes builtins = (.ok names, next)) (hm : repo.canonical m = some c) :
    next.canonical m = some c ↔
      c = m ∨ ¬next.codes.contains m ∧ ∀ a, names.get? m = some a → a = c := by
  by_cases hknown : repo.Known m
  · have hnext : next.Known m := by
      have hkept := hknown.registerWith codes builtins
      rwa [h] at hkept
    obtain rfl : m = c := Option.some.inj (hknown.canonical.symm.trans hm)
    exact iff_of_true hnext.canonical (.inl rfl)
  · have hne : c ≠ m := by
      rintro rfl
      exact hknown (hrepo.known hm)
    have halias : repo.aliases.get? m = some c := by
      unfold Repository.canonical at hm
      rwa [if_neg (by simpa [Known] using hknown)] at hm
    have hbuiltin : ¬Text.isBuiltin m := fun hin => hknown (.inl hin)
    rw [or_iff_right hne]
    by_cases hin : next.codes.contains m
    · have hhidden : next.canonical m = some m := Known.canonical (.inr hin)
      simp [hhidden, hin, hne.symm]
    · have hnext : next.canonical m = (names.get? m).or (some c) := by
        unfold Repository.canonical
        rw [if_neg (by simp [hbuiltin, hin]), (registerWith_answer h).1, NameMap.get?_union, halias]
      rw [hnext, and_iff_right hin]
      cases names.get? m with
      | none => simp
      | some a => simp

end Repository

section Promotion
variable {repo next : Repository} {g g' : PatternGraph} {names : NameMap String} {ids : List Nat}
  {codes : Codes} {promoted : List Promotion} {name : String}

/-- What is bound are the given patterns, each to the name that was answered for it. -/
theorem Build.bindPromoted_answers (repo : Repository) (names : NameMap String) (ids : List Nat)
    (g : PatternGraph) :
    Outcome (bindPromoted repo names ids) g
      (fun promoted _ => promoted.map (·.pattern) = ids ∧
        ∀ p ∈ promoted, names.get? (localName p.pattern) = some p.code)
      fun _ _ => True := by
  induction ids generalizing g with
  | nil => exact ⟨rfl, by simp⟩
  | cons id ids ih =>
    rw [bindPromoted]
    cases hcode : names.get? (localName id) with
    | none => exact trivial
    | some code =>
      simp only [outcome_bind]
      refine (outcome_true _ g).imp (fun node g₁ _ => ?_) fun _ _ _ => trivial
      refine (outcome_true _ g₁).imp (fun changed g₂ _ => ?_) fun _ _ _ => trivial
      refine (ih g₂).imp (fun promoted g₃ hrest => ?_) fun _ _ _ => trivial
      obtain ⟨hpatterns, hcodes⟩ := hrest
      exact ⟨congrArg (id :: ·) hpatterns, List.forall_mem_cons.2 ⟨hcode, hcodes⟩⟩

namespace PatternGraph

/-- What a promotion does to the repository: nothing, or it registers codes under the local names
of its patterns and binds each pattern to what is answered for its name. -/
theorem promote_registers (h : g.promote repo = (.ok promoted, g', next)) :
    promoted = [] ∧ next = repo ∨
      ∃ codes names, repo.registerCodes codes = (.ok names, next) ∧
        (∀ n, codes.contains n → ∃ p ∈ promoted, localName p.pattern = n) ∧
        ∀ p ∈ promoted, names.get? (localName p.pattern) = some p.code := by
  cases promoting_of_eq h with
  | idle hnone => exact .inl ⟨rfl, rfl⟩
  | @bound codes names _ _ _ hsome hcodes hregister hbind =>
    obtain ⟨hpatterns, hanswers⟩ := (bindPromoted_answers next names g.singletons g).of_ok hbind
    refine .inr ⟨codes, names, hregister, fun n hn => ?_, hanswers⟩
    obtain ⟨id, hid, rfl⟩ := exists_pattern_of_describedCodes hcodes hn
    rw [← hpatterns] at hid
    obtain ⟨p, hp, rfl⟩ := List.mem_map.1 hid
    exact ⟨p, hp, rfl⟩

end PatternGraph

end Promotion

namespace Relations
variable {repo next : Repository} {rels : Relations} {spans : SpanTable}
  {options : InferenceOptions} {inference : Inference} {m c : String}

/-- What inference does to the repository is done by a promotion. -/
theorem infer_registers (h : rels.infer repo spans options = (.ok inference, next)) :
    inference.promoted = [] ∧ next = repo ∨
      ∃ codes names, repo.registerCodes codes = (.ok names, next) ∧
        (∀ n, codes.contains n → ∃ p ∈ inference.promoted, localName p.pattern = n) ∧
        ∀ p ∈ inference.promoted, names.get? (localName p.pattern) = some p.code := by
  obtain ⟨g, -, ⟨rfl, rfl⟩ | hpromote⟩ := infer_ok h
  · exact .inl ⟨rfl, rfl⟩
  · exact promote_registers hpromote

/-- A name that is known before inference stands for the same code after it exactly if it stands for
itself, or no entry of that name hides it and no pattern that has it for its local name is promoted
to another code. -/
theorem canonical_infer_iff (calls : List Repository.Call)
    (h : rels.infer (calls.foldl Repository.after .initial) spans options = (.ok inference, next))
    (hm : (calls.foldl Repository.after .initial).canonical m = some c) :
    next.canonical m = some c ↔ c = m ∨ ¬next.codes.contains m ∧
      ∀ p ∈ inference.promoted, localName p.pattern = m → p.code = c := by
  have hrepo := Repository.aliasesKnown_after_calls calls
  generalize calls.foldl Repository.after .initial = repo at h hm hrepo
  rcases infer_registers h with ⟨hpromoted, rfl⟩ | ⟨codes, names, hreg, hbatch, hanswers⟩
  · simp only [hm, hpromoted, List.not_mem_nil, false_implies, implies_true, and_true, true_iff]
    by_cases hin : next.codes.contains m
    · left
      have hself : next.canonical m = some m := Repository.Known.canonical (.inr hin)
      exact Option.some.inj (hm.symm.trans hself)
    · exact .inr hin
  · rw [hrepo.canonical_registerWith_iff hreg hm]
    have hiff : (∀ a, names.get? m = some a → a = c) ↔
        ∀ p ∈ inference.promoted, localName p.pattern = m → p.code = c := by
      constructor
      · rintro hother p hp rfl
        exact hother p.code (hanswers p hp)
      · intro hother a ha
        have hin := ((Repository.registerWith_answer hreg).2.1 m).1 (NameMap.contains_of_get? ha)
        obtain ⟨p, hp, rfl⟩ := hbatch m (hin.resolve_right (by simp [NameMap.contains]))
        rw [← hother p hp rfl]
        exact Option.some.inj (ha.symm.trans (hanswers p hp))
    rw [hiff]

/-- All vectors of integers. -/
def intVectors : Relations := .ofList [("ints", .filter (.vector (.code "@int")))]

/-- Two names for the empty product, of which one is the local name of a pattern. -/
def emptyProducts : List Repository.Call :=
  [.registerCodes (.ofList [("Nil", .unit), (localName 5, .unit)])]

theorem infer_intVectors : ∃ inference next,
    intVectors.infer (emptyProducts.foldl Repository.after .initial) ∅ {} = (.ok inference, next) ∧
    inference.promoted = [⟨5, "BIEHtwD"⟩] ∧ ¬next.codes.contains "Nil" ∧
    next.canonical (localName 5) = some "BIEHtwD" := by
  have hrun : (intVectors.infer (emptyProducts.foldl Repository.after .initial) ∅ {}).1.toOption.map
        (·.promoted) = some [⟨5, "BIEHtwD"⟩] ∧
      ¬(intVectors.infer (emptyProducts.foldl Repository.after .initial) ∅ {}).2.codes.contains
        "Nil" ∧
      (intVectors.infer (emptyProducts.foldl Repository.after .initial) ∅ {}).2.canonical
        (localName 5) = some "BIEHtwD" := by
    decide +kernel
  cases hinfer : intVectors.infer (emptyProducts.foldl Repository.after .initial) ∅ {} with
  | mk result next =>
    cases result with
    | error e => simp [hinfer, Except.toOption] at hrun
    | ok inference =>
      simp only [hinfer, Except.toOption, Option.map_some, Option.some.injEq] at hrun
      exact ⟨inference, next, rfl, hrun⟩

theorem canonical_infer_iff_intVectors : ∃ inference next,
    intVectors.infer (emptyProducts.foldl Repository.after .initial) ∅ {} = (.ok inference, next) ∧
    (emptyProducts.foldl Repository.after .initial).canonical "Nil" = some "DBO" ∧
    next.canonical "Nil" = some "DBO" := by
  obtain ⟨inference, next, hinfer, hpromoted, hfree, -⟩ := infer_intVectors
  have hbefore : (emptyProducts.foldl Repository.after .initial).canonical "Nil" = some "DBO" := by
    decide +kernel
  refine ⟨inference, next, hinfer, hbefore, ?_⟩
  refine (canonical_infer_iff emptyProducts hinfer hbefore).2 (.inr ⟨hfree, fun p hp hname => ?_⟩)
  rw [hpromoted, List.mem_singleton] at hp
  rw [hp] at hname
  exact absurd hname (by decide)

/-- A declared name that is the local name of a promoted pattern comes to mean the pattern. -/
theorem canonical_overwritten_by_promotion : ∃ inference next,
    intVectors.infer (emptyProducts.foldl Repository.after .initial) ∅ {} = (.ok inference, next) ∧
    (emptyProducts.foldl Repository.after .initial).canonical (localName 5) = some "DBO" ∧
    next.canonical (localName 5) ≠ some "DBO" := by
  obtain ⟨inference, next, hinfer, -, -, hafter⟩ := infer_intVectors
  refine ⟨inference, next, hinfer, by decide +kernel, ?_⟩
  rw [hafter]
  decide

end Relations

end StructuralTyping
