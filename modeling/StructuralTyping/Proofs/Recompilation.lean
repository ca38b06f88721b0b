import StructuralTyping.Proofs.CarriedOperations
import StructuralTyping.Proofs.KeptNames
import StructuralTyping.Proofs.RelationIdentity
import StructuralTyping.Proofs.RepeatedRegistration
import StructuralTyping.Session

/-!
# Compiling a unit again

A unit that was compiled can be compiled again with the same answer, and the session stays as it is.
The repository has grown by the codes of the unit and by those of promoted patterns. But a code that
is registered again is there already, and what else is in the repository does not matter as long as
no name changes its meaning: no alias is spelled like an entry, which could hide it, and the names
that promotion enters are not those that the unit refers to.
-/
namespace StructuralTyping

open PatternGraph Build

namespace Text

/-- Whether a name is spelled like a hash. -/
def spellsHash (name : String) : Bool := name ≠ "" && isHashText name

theorem spellsHash_contentHash (text : String) : spellsHash (contentHash text) := by
  have hne : contentHash text ≠ "" := by
    intro h
    have hidentifier := isIdentifier_contentHash text
    rw [h] at hidentifier
    exact absurd hidentifier (by decide)
  simp [spellsHash, hne, isHashText_contentHash]

end Text

namespace PatternGraph
variable {repo next : Repository} {g g' : PatternGraph} {ids : List Nat} {codes : Codes}
  {names : NameMap String} {promoted : List Promotion} {n : String}

/-- The name starts like the local names of patterns. -/
def LooksLocal (n : String) : Prop := [':', 'P'] <+: n.toList

instance (n : String) : Decidable (LooksLocal n) := inferInstanceAs (Decidable (_ <+: _))

theorem looksLocal_localName (id : Nat) : LooksLocal (localName id) := by
  rw [LooksLocal, toList_localName]
  exact ⟨_, rfl⟩

theorem LooksLocal.not_spellsHash (h : LooksLocal n) : ¬Text.spellsHash n := by
  obtain ⟨rest, hrest⟩ := h
  have hcolon : ':' ∈ n.toList := by
    rw [← hrest]
    exact List.mem_cons_self
  simp only [Text.spellsHash, Text.isHashText, Bool.and_eq_true, List.all_eq_true, not_and]
  exact fun _ hall => absurd (hall ':' hcolon) (by decide)

section Promotion
variable (hrepo : repo.Consistent) (hg : g.Settled repo [])
include hrepo hg

/-- Codes of patterns that were registered are registered again with nothing changed. -/
theorem registerCodes_again (hcodes : g.describedCodes g.singletons = .ok codes)
    (h : repo.registerCodes codes = (.ok names, next)) :
    next.registerCodes codes = (.ok names, next) := by
  have hbuiltin := describedCodes_not_isBuiltin hcodes
  have hnone (n b : String) (hb : (∅ : NameMap String).get? n = some b) : Text.isBuiltin b := by
    cases hb
  obtain ⟨hentries, hnames⟩ := described_of_describedCodes hcodes
  have hnext : next.Consistent := by
    have hafter := Repository.registerWith_consistent hrepo hbuiltin hnone
    rwa [show repo.registerWith codes ∅ = (.ok names, next) from h] at hafter
  have hrefs : repo.KeepsReferences next codes ∅ := by
    intro n x hx r hr hout _
    obtain ⟨id, hid, -, hcode⟩ := hentries n x hx
    obtain ⟨l, d, hd, rfl⟩ := hg.formed.grounded.exists_edge_of_mem_refs hcode hr
    rcases hg.formed.grounded.singleton_or_code hid hd with hin | ⟨c, hkind⟩
    · rw [hg.formed.grounded.codeReference_of_singleton hin] at hout
      exact absurd (hnames _ hin) hout
    · rw [codeReference_of_bound hkind]
      intro c' hc'
      have hknown := hg.known_of_bound hkind
      obtain rfl : c = c' := Option.some.inj (hknown.canonical.symm.trans hc')
      have hknown' := hknown.registerWith codes ∅
      rw [show repo.registerWith codes ∅ = (.ok names, next) from h] at hknown'
      exact hknown'.canonical
  have hagain := Repository.registerWith_again hrepo hnext hbuiltin hnone h (fun _ _ hx => hx)
    (fun n hn => by
      obtain ⟨id, -, rfl⟩ := exists_pattern_of_describedCodes hcodes hn
      exact not_contains_localName hnext id) hrefs
  have haliases := (Repository.registerWith_answer h).1
  rw [NameMap.union_eq_self fun k x hx => by rw [haliases, NameMap.get?_union, hx, Option.some_or]]
    at hagain
  exact hagain

/-- Patterns that were promoted are promoted again with nothing changed. -/
theorem promote_again (h : g.promote repo = (.ok promoted, g', next)) :
    g.promote next = (.ok promoted, g', next) := by
  cases promoting_of_eq h with
  | idle hnone => exact h
  | bound hsome hcodes hregister hbind =>
    unfold promote turnIntoCodes
    rw [if_neg hsome]
    simp only [hcodes, registerCodes_again hrepo hg hcodes hregister, hbind]

end Promotion

end PatternGraph

namespace Relations
variable {repo next : Repository} {rels : Relations} {spans : SpanTable}
  {options : InferenceOptions} {inference : Inference}

/-- Inference that succeeds does the same in the repository that it leaves. -/
theorem infer_again (hrepo : repo.Consistent)
    (hnames : ∀ n, rels.NamesCode n → repo.KeepsName next n)
    (h : rels.infer repo spans options = (.ok inference, next)) :
    rels.infer next spans options = (.ok inference, next) := by
  obtain ⟨g, hsolved, hend⟩ := infer_ok h
  obtain ⟨constraints, hsolves⟩ := exists_solves hsolved
  have hg := Evolves.settled hsolves.evolves hrepo.aliasesKnown settled_empty
  have hkept : repo.KeptBy next := by
    rcases hend with ⟨-, rfl⟩ | hpromoted
    · exact fun c hc => ⟨hc, rfl⟩
    · exact (promote_keeps hrepo hg hpromoted).1
  have hsolved' := solved_keptBy hrepo hkept hnames hsolved
  unfold infer at h ⊢
  dsimp only at h ⊢
  rw [hsolved] at h
  rw [hsolved']
  dsimp only at h ⊢
  generalize hpromoted : (if options.promoteSingletons = true then g.promote repo
    else (.ok [], g, repo)) = outcome at h
  obtain ⟨result, g', mid⟩ := outcome
  cases result with
  | error e => simp at h
  | ok promoted =>
    dsimp only at h
    obtain rfl : mid = next := by
      split at h <;> exact (Prod.mk.inj h).2
    have hagain : (if options.promoteSingletons = true then g.promote mid
        else (.ok [], g, mid)) = (.ok promoted, g', mid) := by
      split_ifs at hpromoted ⊢
      · exact promote_again hrepo hg hpromoted
      · obtain rfl : repo = mid := (Prod.mk.inj (Prod.mk.inj hpromoted).2).2
        exact hpromoted
    rw [hagain]
    exact h

end Relations

section Growth
variable {repo next : Repository} {codes : Codes} {builtins names : NameMap String} {n : String}

namespace Repository

theorem Consistent.spellsHash (hrepo : repo.Consistent) (hn : repo.codes.contains n) :
    Text.spellsHash n := by
  obtain ⟨text, -, rfl⟩ := hrepo.canonical.named n hn
  exact Text.spellsHash_contentHash text

/-- No entry, present or to come, hides an alias. -/
structure Unhidden (repo : Repository) : Prop where
  consistent : repo.Consistent
  aliases : ∀ n, repo.aliases.contains n → ¬Text.spellsHash n

theorem initial_unhidden : initial.Unhidden where
  consistent := initial_consistent
  aliases n hn := by
    obtain ⟨c, hc⟩ := NameMap.contains_iff.1 hn
    rw [get?_initial_aliases] at hc
    split_ifs at hc with hunit
    rw [hunit]
    decide

/-- As long as nothing is hidden, a name means what it did if its alias is still there. -/
theorem Unhidden.keepsName (hrepo : repo.Unhidden) (hnext : next.Consistent)
    (hkept : ∀ k x, repo.codes.get? k = some x → next.codes.get? k = some x)
    (halias : next.aliases.get? n = repo.aliases.get? n) : repo.KeepsName next n := by
  intro c hc
  by_cases hknown : repo.Known n
  · exact (hrepo.consistent.keptBy hnext hkept).keepsName hknown c hc
  · unfold canonical at hc ⊢
    rw [if_neg (by simpa [Known] using hknown)] at hc
    have hfree : ¬next.codes.contains n :=
      fun hin => hrepo.aliases n (NameMap.contains_of_get? hc) (hnext.spellsHash hin)
    have hbuiltin : ¬Text.isBuiltin n := fun hin => hknown (.inl hin)
    rw [if_neg (by simp [hbuiltin, hfree]), halias, hc]

theorem Unhidden.registerWith (hrepo : repo.Unhidden)
    (hcodes : ∀ n, codes.contains n → ¬Text.isBuiltin n)
    (hbuiltins : ∀ n b, builtins.get? n = some b → Text.isBuiltin b)
    (hnames : ∀ n, codes.contains n ∨ builtins.contains n → ¬Text.spellsHash n) :
    (repo.registerWith codes builtins).2.Unhidden where
  consistent := registerWith_consistent hrepo.consistent hcodes hbuiltins
  aliases n hn := by
    cases hregister : repo.registerWith codes builtins with
    | mk result next =>
      rw [hregister] at hn
      cases result with
      | error e =>
        rw [(registerWith_eq_error hregister).1] at hn
        exact hrepo.aliases n hn
      | ok names =>
        obtain ⟨haliases, hanswered, -⟩ := registerWith_answer hregister
        obtain ⟨c, hc⟩ := NameMap.contains_iff.1 hn
        rw [haliases, NameMap.get?_union] at hc
        rcases Option.or_eq_some_iff.1 hc with hc | ⟨-, hc⟩
        · exact hnames n ((hanswered n).1 (NameMap.contains_of_get? hc))
        · exact hrepo.aliases n (NameMap.contains_of_get? hc)

end Repository

/-- A promotion leaves the repository as it is or registers codes under local names. -/
theorem PatternGraph.promote_repository (g : PatternGraph) (repo : Repository) :
    (g.promote repo).2.2 = repo ∨
      ∃ codes : Codes, (∀ n, codes.contains n → ¬Text.isBuiltin n ∧ LooksLocal n) ∧
        (g.promote repo).2.2 = (repo.registerCodes codes).2 := by
  have hlocal {codes : Codes} (hcodes : g.describedCodes g.singletons = .ok codes) (n : String)
      (hn : codes.contains n) : ¬Text.isBuiltin n ∧ LooksLocal n := by
    obtain ⟨id, -, rfl⟩ := exists_pattern_of_describedCodes hcodes hn
    exact ⟨describedCodes_not_isBuiltin hcodes _ hn, looksLocal_localName id⟩
  cases hpromote : g.promote repo with
  | mk result rest =>
    cases promoting_of_eq hpromote with
    | idle hnone => exact .inl rfl
    | undescribed hcodes => exact .inl rfl
    | unregistered hcodes hregister => exact .inr ⟨_, hlocal hcodes, by rw [hregister]⟩
    | unbound hcodes hregister hbind => exact .inr ⟨_, hlocal hcodes, by rw [hregister]⟩
    | bound hsome hcodes hregister hbind => exact .inr ⟨_, hlocal hcodes, by rw [hregister]⟩

namespace Relations
variable {rels : Relations} {spans : SpanTable} {options : InferenceOptions}
  {inference : Inference}

/-- What inference does to the repository, also if it fails, a promotion does. -/
theorem infer_repository (rels : Relations) (repo : Repository) (spans : SpanTable)
    (options : InferenceOptions) : (rels.infer repo spans options).2 = repo ∨
      ∃ g : PatternGraph, (rels.infer repo spans options).2 = (g.promote repo).2.2 := by
  unfold infer
  dsimp only
  cases rels.solved repo (rels.sites spans) with
  | error e => exact .inl rfl
  | ok g =>
    dsimp only
    by_cases hpromote : options.promoteSingletons
    · refine .inr ⟨g, ?_⟩
      rw [if_pos hpromote]
      cases g.promote repo with
      | mk result rest =>
        cases result with
        | error e => rfl
        | ok promoted =>
          dsimp only
          split <;> rfl
    · refine .inl ?_
      rw [if_neg hpromote]
      dsimp only
      split <;> rfl

/-- Inference keeps all entries, and all aliases but those with local names. -/
theorem infer_keeps (h : rels.infer repo spans options = (.ok inference, next)) :
    (∀ k x, repo.codes.get? k = some x → next.codes.get? k = some x) ∧
      ∀ n, ¬LooksLocal n → next.aliases.get? n = repo.aliases.get? n := by
  rcases infer_registers h with ⟨-, rfl⟩ | ⟨codes, names, hregister, hbatch, -⟩
  · exact ⟨fun _ _ hx => hx, fun _ _ => rfl⟩
  obtain ⟨haliases, hanswered, -⟩ := Repository.registerWith_answer hregister
  refine ⟨fun k x => Repository.get?_of_registerWith_eq hregister, fun n hn => ?_⟩
  have hfree : ¬names.contains n := by
    intro hin
    have hcode := ((hanswered n).1 hin).resolve_right (by simp [NameMap.contains])
    obtain ⟨p, -, rfl⟩ := hbatch n hcode
    exact hn (looksLocal_localName p.pattern)
  rw [haliases, NameMap.get?_union, NameMap.get?_eq_none_iff.2 hfree, Option.none_or]

end Relations

end Growth

/-- A unit is plain if the names that it declares are neither those of builtins nor spelled like the
names that registration and promotion make up, and nothing in it refers to the local name of a
pattern. -/
structure CompilationUnit.Plain (u : CompilationUnit) : Prop where
  declared : ∀ n, u.codes.contains n →
    ¬Text.isBuiltin n ∧ ¬LooksLocal n ∧ ¬Text.spellsHash n
  referenced : ∀ n declaration x, u.codes.get? n = some declaration →
    declaration.check n = .ok (.code x) → ∀ r ∈ x.refs, ¬LooksLocal r
  inferred : ∀ n, u.relations.NamesCode n → ¬LooksLocal n

namespace Repository
variable {repo mid next : Repository} {u : CompilationUnit} {names : NameMap String}
  {rels : Relations} {spans : SpanTable} {options : InferenceOptions} {inference : Inference}

theorem Unhidden.infer (hrepo : repo.Unhidden) {result : Except PatternError Inference}
    (h : rels.infer repo spans options = (result, next)) : next.Unhidden := by
  obtain rfl : (rels.infer repo spans options).2 = next := congrArg Prod.snd h
  rcases rels.infer_repository repo spans options with hsame | ⟨g, hpromote⟩
  · rwa [hsame]
  rw [hpromote]
  rcases g.promote_repository repo with hsame | ⟨codes, hcodes, hregister⟩
  · rwa [hsame]
  rw [hregister]
  exact hrepo.registerWith (fun n hn => (hcodes n hn).1) (by simp) fun n hn =>
    (hcodes n (hn.resolve_right (by simp [NameMap.contains]))).2.not_spellsHash

theorem Unhidden.register (hrepo : repo.Unhidden) (hu : u.Plain)
    {result : Except CodeError (NameMap String)}
    (h : repo.register u.codes = (result, next)) : next.Unhidden := by
  obtain rfl : (repo.register u.codes).2 = next := congrArg Prod.snd h
  rw [Repository.register]
  cases hcheck : checkAll u.codes with
  | error e => exact hrepo
  | ok checked =>
    have hdeclared {n : String} (hn : checked.1.contains n ∨ checked.2.contains n) :=
      hu.declared n ((contains_iff_of_checkAll hcheck).2 hn)
    exact hrepo.registerWith (fun n hn => (hdeclared (.inl hn)).1)
      (checking_of_checkAll hcheck).builtins fun n hn => (hdeclared hn).2.2

/-- The relations of a plain unit are inferred again with nothing changed. -/
theorem Unhidden.infer_again (hmid : mid.Unhidden) (hu : u.Plain)
    (h : u.relations.infer mid spans options = (.ok inference, next)) :
    u.relations.infer next spans options = (.ok inference, next) := by
  obtain ⟨hkept, haliases⟩ := Relations.infer_keeps h
  refine Relations.infer_again hmid.consistent (fun n hn => ?_) h
  exact hmid.keepsName (hmid.infer h).consistent hkept (haliases n (hu.inferred n hn))

/-- The codes of a plain unit are registered again with nothing changed, though patterns were
promoted in between. -/
theorem Unhidden.register_again (hrepo : repo.Unhidden) (hu : u.Plain)
    (h : repo.register u.codes = (.ok names, mid))
    (hinfer : u.relations.infer mid spans options = (.ok inference, next)) :
    next.register u.codes = (.ok names, next) := by
  have hnext := (hrepo.register hu h).infer hinfer
  obtain ⟨hkept, haliases⟩ := Relations.infer_keeps hinfer
  unfold Repository.register at h ⊢
  cases hcheck : checkAll u.codes with
  | error e => simp [hcheck] at h
  | ok checked =>
    obtain ⟨codes, builtins⟩ := checked
    simp only [hcheck] at h ⊢
    have hchecking := checking_of_checkAll hcheck
    have hdeclared {n : String} (hn : codes.contains n ∨ builtins.contains n) :=
      hu.declared n ((contains_iff_of_checkAll hcheck).2 hn)
    obtain ⟨hanswer, hanswered, -⟩ := registerWith_answer h
    -- What the unit refers to and does not declare was known before, under an alias or an entry.
    have hrefs : repo.KeepsReferences next codes builtins := by
      intro n x hx r hr hcode hbuiltin
      obtain ⟨declaration, hdecl, hchecked⟩ := hchecking.codes n x hx
      have hlocal := hu.referenced n declaration x hdecl hchecked r hr
      have hfree : ¬names.contains r := fun hin => ((hanswered r).1 hin).elim hcode hbuiltin
      refine hrepo.keepsName hnext.consistent
        (fun k y hy => hkept k y (get?_of_registerWith_eq h hy)) ?_
      rw [haliases r hlocal, hanswer, NameMap.get?_union, NameMap.get?_eq_none_iff.2 hfree,
        Option.none_or]
    have hagain := registerWith_again hrepo.consistent hnext.consistent
      (fun n hn => (hdeclared (.inl hn)).1) hchecking.builtins h hkept
      (fun n hn hin => (hdeclared (.inl hn)).2.2 (hnext.consistent.spellsHash hin)) hrefs
    have hentered (k c : String) (hc : names.get? k = some c) : next.aliases.get? k = some c := by
      have hin := (hanswered k).1 (NameMap.contains_of_get? hc)
      rw [haliases k (hdeclared hin).2.1, hanswer, NameMap.get?_union, hc, Option.some_or]
    rwa [NameMap.union_eq_self hentered] at hagain

end Repository

namespace Session
variable {s t : Session} {u : CompilationUnit} {spans : SpanTable} {first : Compiled}

/-- What is done with a session. -/
inductive Step
  | compile (u : CompilationUnit) (spans : SpanTable)
  | reset

def Step.Plain : Step → Prop
  | compile u _ => u.Plain
  | reset => True

/-- The session after a step, whether it succeeds or not. -/
def after (s : Session) : Step → Session
  | .compile u spans => (s.compile u spans).2
  | .reset => s.reset

theorem compile_ok (h : s.compile u spans = (.ok first, t)) :
    ∃ representatives mid inference next,
      s.repository.register u.codes = (.ok representatives, mid) ∧
      u.relations.infer mid spans s.options.inference = (.ok inference, next) ∧
      first = assemble s.options u.relations representatives inference ∧
      t = { s with repository := next } := by
  unfold compile at h
  split at h
  · simp at h
  case h_2 representatives mid hregister =>
    split at h
    · simp at h
    case h_2 inference next hinfer =>
      obtain ⟨hfirst, ht⟩ := Prod.mk.inj h
      exact ⟨representatives, mid, inference, next, hregister, hinfer,
        (Except.ok.inj hfirst).symm, ht.symm⟩

theorem unhidden_compile (hs : s.repository.Unhidden) (hu : u.Plain) :
    (s.compile u spans).2.repository.Unhidden := by
  unfold compile
  split
  case h_1 hregister => exact hs.register hu hregister
  case h_2 hregister =>
    have hmid := hs.register hu hregister
    split
    case h_1 hinfer => exact hmid.infer hinfer
    case h_2 hinfer => exact hmid.infer hinfer

theorem unhidden_after {step : Step} (hs : s.repository.Unhidden) (hstep : step.Plain) :
    (s.after step).repository.Unhidden := by
  cases step with
  | compile u spans => exact unhidden_compile hs hstep
  | reset => exact Repository.initial_unhidden

theorem unhidden_foldl_after {steps : List Step} (hs : s.repository.Unhidden)
    (hsteps : ∀ step ∈ steps, step.Plain) : (steps.foldl after s).repository.Unhidden := by
  induction steps generalizing s with
  | nil => exact hs
  | cons step steps ih =>
    rw [List.forall_mem_cons] at hsteps
    exact ih (unhidden_after hs hsteps.1) hsteps.2

theorem options_after (s : Session) (step : Step) : (s.after step).options = s.options := by
  cases step with
  | reset => rfl
  | compile u spans =>
    rw [after, compile]
    split
    · rfl
    · split <;> rfl

theorem options_foldl_after (s : Session) (steps : List Step) :
    (steps.foldl after s).options = s.options := by
  induction steps generalizing s with
  | nil => rfl
  | cons step steps ih => rw [List.foldl_cons, ih, options_after]

/-- A plain unit that was compiled, in a session that compiled plain units only, is compiled again
with the same answer, and the session stays as it is. -/
theorem recompile_stable (options : SessionOptions) (steps : List Step)
    (hsteps : ∀ step ∈ steps, step.Plain) (hu : u.Plain)
    (h : (steps.foldl after { options }).compile u spans = (.ok first, s)) :
    s.compile u spans = (.ok first, s) := by
  have hstart : (steps.foldl after { options }).repository.Unhidden :=
    unhidden_foldl_after Repository.initial_unhidden hsteps
  generalize steps.foldl after { options } = start at h hstart
  obtain ⟨representatives, mid, inference, next, hregister, hinfer, rfl, rfl⟩ := compile_ok h
  unfold compile
  dsimp only
  rw [hstart.register_again hu hregister hinfer]
  dsimp only
  rw [(hstart.register hu hregister).infer_again hu hinfer]

end Session

section Pairs

theorem CompilationUnit.plain_ofCode {codes : Codes} {relations : Relations}
    (hdeclared : ∀ n ∈ codes.keys, ¬Text.isBuiltin n ∧ ¬LooksLocal n ∧ ¬Text.spellsHash n)
    (hreferenced : ∀ e ∈ codes.entries, ∀ r ∈ e.2.refs, ¬LooksLocal r)
    (hinferred : ∀ n, relations.NamesCode n → ¬LooksLocal n) :
    Plain { codes := codes.map .ofCode, relations } where
  declared n hn := hdeclared n (NameMap.mem_keys_iff.2 (NameMap.contains_map.1 hn))
  referenced n declaration x hdecl hcheck := by
    rw [NameMap.get?_map] at hdecl
    obtain ⟨y, hy, rfl⟩ := Option.map_eq_some_iff.1 hdecl
    obtain rfl : y = x := by cases y <;> simpa [Declaration.ofCode, Declaration.check] using hcheck
    exact hreferenced (n, y) (NameMap.get?_eq_some_iff.1 hy)
  inferred := hinferred

namespace CompilationUnit

def streams : CompilationUnit where
  codes := .map .ofCode
    (.ofList [("stream", .product (.ofList [("head", "@int"), ("tail", "stream")]))])

/-- Pairs of streams, and all vectors of streams. -/
def pairs : CompilationUnit where
  codes := .map .ofCode
    (.ofList [("pair", .product (.ofList [("left", "stream"), ("right", "stream")]))])
  relations := .ofList [("streams", .filter (.vector (.code "stream")))]

theorem streams_plain : streams.Plain :=
  plain_ofCode (by decide) (by decide) fun n ⟨_, _, hr, _⟩ => by simp at hr

theorem eq_of_namesCode_pairs {n : String} (h : pairs.relations.NamesCode n) : n = "stream" := by
  obtain ⟨name, r, hr, hn⟩ := h
  obtain ⟨-, rfl⟩ := NameMap.get?_ofList_singleton.1 hr
  cases hn with
  | filter hf =>
    cases hf with
    | element hf => cases hf with | code => rfl
  | child hc => simp [Relation.children] at hc

theorem pairs_plain : pairs.Plain :=
  plain_ofCode (by decide) (by decide) fun n hn => by
    rw [eq_of_namesCode_pairs hn]
    decide

end CompilationUnit

namespace Repository

def withStreams : Repository where
  codes := streamEntries
  aliases := .ofList [(Text.unitName, unit), ("stream", "rArHSMQzZK")]

def withPairs : Repository where
  codes := withStreams.codes.insert "CCLwAqZKVMZ"
    (.product (.ofList [("left", "rArHSMQzZK"), ("right", "rArHSMQzZK")]))
  aliases := withStreams.aliases.insert "pair" "CCLwAqZKVMZ"

theorem register_pairs : withStreams.register CompilationUnit.pairs.codes =
    (.ok (.ofList [("pair", "CCLwAqZKVMZ")]), withPairs) := by
  decide +kernel

theorem infer_pairs :
    (CompilationUnit.pairs.relations.infer withPairs ∅ {}).1.toOption.map (·.promoted) =
      some [⟨6, "BNNIGyAQRHz"⟩] := by
  decide +kernel

end Repository

namespace Session

/-- The pairs come too early at first. -/
def pairSteps : List Step := [.compile .pairs ∅, .reset, .compile .streams ∅]

theorem pairSteps_plain : ∀ step ∈ pairSteps, step.Plain := by
  simp only [pairSteps, List.forall_mem_cons]
  exact ⟨CompilationUnit.pairs_plain, trivial, CompilationUnit.streams_plain, by simp⟩

theorem compile_pairs : ∃ first s, (pairSteps.foldl after {}).compile .pairs ∅ = (.ok first, s) ∧
    first.promoted = [⟨6, "BNNIGyAQRHz"⟩] := by
  have hrepository : (pairSteps.foldl after {}).repository = .withStreams := by decide +kernel
  have hpromoted := Repository.infer_pairs
  rw [compile, hrepository, options_foldl_after, Repository.register_pairs]
  dsimp only
  cases hinfer : CompilationUnit.pairs.relations.infer .withPairs ∅ {} with
  | mk result next =>
    cases result with
    | error e => simp [hinfer, Except.toOption] at hpromoted
    | ok inference =>
      simp only [hinfer, Except.toOption, Option.map_some, Option.some.injEq] at hpromoted
      exact ⟨_, _, rfl, hpromoted⟩

theorem recompile_stable_pairs : ∃ first s,
    (pairSteps.foldl after {}).compile .pairs ∅ = (.ok first, s) ∧
    first.promoted = [⟨6, "BNNIGyAQRHz"⟩] ∧ s.compile .pairs ∅ = (.ok first, s) := by
  obtain ⟨first, s, hcompile, hpromoted⟩ := compile_pairs
  exact ⟨first, s, hcompile, hpromoted,
    recompile_stable {} pairSteps pairSteps_plain CompilationUnit.pairs_plain hcompile⟩

end Session

end Pairs

end StructuralTyping
