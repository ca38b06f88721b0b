import StructuralTyping.Code.Repository
import StructuralTyping.Proofs.CanonicalForm

/-!
# Registering a batch

A consistent repository is in canonical form, and so it is after every registration. Merging a batch
leaves the entries as they are, so the old names keep their trees; a tree in canonical form has its
canonical name already, so finalizing the merged codes gives the old entries back, unchanged. A
registration that fails therefore fails before anything is entered.
-/
namespace StructuralTyping.Repository
open Codes (Finalized)

/-- The entries are in canonical form, the empty product is one of them, and every alias stands for
a builtin or an entry. -/
structure Consistent (repo : Repository) : Prop where
  canonical : repo.codes.Canonical
  unit : repo.codes.get? Repository.unit = some .unit
  aliases : ∀ n c, repo.aliases.get? n = some c → Text.isBuiltin c ∨ repo.codes.contains c

variable {repo : Repository} {codes merged : Codes} {builtins names : NameMap String}
  {k n r s : String} {f : Finalized}

theorem foldlM_ok {α β ε : Type} {f : β → α → Except ε β} {I : List α → β → Prop}
    (hstep : ∀ a rest b next, I (a :: rest) b → f b a = .ok next → I rest next)
    {todo : List α} {b result : β} (hb : I todo b) (h : todo.foldlM f b = .ok result) :
    I [] result := by
  induction todo generalizing b with
  | nil =>
    obtain rfl := Except.ok.inj h
    exact hb
  | cons a rest ih =>
    rw [List.foldlM_cons] at h
    cases hnext : f b a with
    | error e => simp [hnext, bind, Except.bind] at h
    | ok next =>
      rw [hnext] at h
      exact ih (hstep a rest b next hb hnext) h

section Merging

theorem Consistent.canonical_known (hrepo : repo.Consistent) (h : repo.canonical n = some s) :
    Text.isBuiltin s ∨ repo.codes.contains s := by
  unfold Repository.canonical at h
  split_ifs at h with hn
  · obtain rfl := Option.some.inj h
    simpa using hn
  · exact hrepo.aliases n s h

theorem Consistent.resolve_known (hrepo : repo.Consistent)
    (hbuiltins : ∀ n b, builtins.get? n = some b → Text.isBuiltin b)
    (h : repo.resolve codes builtins n r = .ok s) :
    Text.isBuiltin s ∨ codes.contains s ∨ repo.codes.contains s := by
  unfold resolve at h
  split_ifs at h with hr
  · obtain rfl := Except.ok.inj h
    exact .inr (.inl hr)
  · split at h
    case h_1 b hb =>
      obtain rfl := Except.ok.inj h
      exact .inl (hbuiltins r b hb)
    case h_2 =>
      split at h
      · obtain rfl := Except.ok.inj h
        exact (hrepo.canonical_known ‹_›).imp id .inr
      · cases h

theorem mergeEntry_eq_ok {next : Codes} {x : Code String}
    (h : repo.mergeEntry codes builtins merged (n, x) = .ok next) :
    ¬repo.codes.contains n ∧ n ≠ Text.unitName ∧
      ∃ y, x.traverse (repo.resolve codes builtins n) = .ok y ∧ merged.insert n y = next := by
  unfold mergeEntry at h
  split_ifs at h with hn
  · cases h
  · rw [Bool.or_eq_true, not_or, beq_iff_eq] at hn
    refine ⟨hn.1, hn.2, ?_⟩
    cases hy : x.traverse (repo.resolve codes builtins n) with
    | error e => simp [hy, bind, Except.bind] at h
    | ok y => exact ⟨y, rfl, by simpa [hy, bind, Except.bind, pure, Except.pure] using h⟩

/-- What holds while the codes of a batch are merged and some are still to be done. -/
structure Merging (repo : Repository) (codes : Codes) (todo : List (String × Code String))
    (merged : Codes) : Prop where
  kept : ∀ k x, repo.codes.get? k = some x → merged.get? k = some x
  pending : ∀ e ∈ todo, codes.contains e.1
  done : ∀ n, codes.contains n → merged.contains n ∨ n ∈ todo.map (·.1)
  added : ∀ n y, merged.get? n = some y → ¬repo.codes.contains n →
    codes.contains n ∧ n ≠ Text.unitName ∧
      ∀ s ∈ y.refs, Text.isBuiltin s ∨ codes.contains s ∨ repo.codes.contains s

theorem Merging.start (repo : Repository) (codes : Codes) :
    Merging repo codes codes.entries repo.codes where
  kept _ _ h := h
  pending _ he := NameMap.contains_of_get? (NameMap.get?_eq_some_iff.2 he)
  done _ hn := .inr (NameMap.mem_keys_iff.2 hn)
  added _ _ hx hn := absurd (NameMap.contains_of_get? hx) hn

theorem Merging.step (hrepo : repo.Consistent)
    (hbuiltins : ∀ n b, builtins.get? n = some b → Text.isBuiltin b) {e : String × Code String}
    {todo : List (String × Code String)} {next : Codes} (h : Merging repo codes (e :: todo) merged)
    (hnext : repo.mergeEntry codes builtins merged e = .ok next) :
    Merging repo codes todo next := by
  obtain ⟨n, x⟩ := e
  obtain ⟨hn, hunit, y, hy, rfl⟩ := mergeEntry_eq_ok hnext
  constructor
  · intro k z hz
    have hk : k ≠ n := by
      rintro rfl
      exact hn (NameMap.contains_of_get? hz)
    rw [NameMap.get?_insert, if_neg hk]
    exact h.kept k z hz
  · exact fun e he => h.pending e (List.mem_cons_of_mem _ he)
  · intro m hm
    rw [NameMap.contains_insert]
    have hdone := h.done m hm
    rw [List.map_cons, List.mem_cons] at hdone
    tauto
  · intro m z hz hm
    rw [NameMap.get?_insert] at hz
    split_ifs at hz with hmn
    · obtain rfl := Option.some.inj hz
      rw [hmn]
      refine ⟨h.pending _ List.mem_cons_self, hunit, fun s hs => ?_⟩
      obtain ⟨r, -, hr⟩ := (Code.alike_of_traverse hy).exists_ref hs
      exact hrepo.resolve_known hbuiltins hr
    · exact h.added m z hz hm

theorem merging_of_merge (hrepo : repo.Consistent)
    (hbuiltins : ∀ n b, builtins.get? n = some b → Text.isBuiltin b)
    (h : repo.merge codes builtins = .ok merged) : Merging repo codes [] merged :=
  foldlM_ok (fun _ _ _ _ hm hnext => hm.step hrepo hbuiltins hnext) (.start repo codes) h

variable (hrepo : repo.Consistent) (hcodes : ∀ n, codes.contains n → ¬Text.isBuiltin n)
  (hm : Merging repo codes [] merged)
include hm

theorem Merging.contains (hn : codes.contains n) : merged.contains n :=
  (hm.done n hn).resolve_right List.not_mem_nil

include hrepo

theorem Merging.not_contains_unitName : ¬merged.contains Text.unitName := by
  intro hin
  obtain ⟨y, hy⟩ := NameMap.contains_iff.1 hin
  exact (hm.added _ y hy hrepo.canonical.not_contains_unitName).2.1 rfl

include hcodes

theorem Merging.closed : merged.Closed where
  names n hn := by
    by_cases hold : repo.codes.contains n
    · exact hrepo.canonical.closed.names n hold
    · obtain ⟨y, hy⟩ := NameMap.contains_iff.1 hn
      exact hcodes n (hm.added n y hy hold).1
  refs n y hy s hs := by
    have hkeep (s : String) (h : repo.codes.contains s) : merged.contains s := by
      obtain ⟨x, hx⟩ := NameMap.contains_iff.1 h
      exact NameMap.contains_of_get? (hm.kept s x hx)
    by_cases hold : repo.codes.contains n
    · obtain ⟨x, hx⟩ := NameMap.contains_iff.1 hold
      obtain rfl : x = y := Option.some.inj ((hm.kept n x hx).symm.trans hy)
      exact (hrepo.canonical.closed.refs n x hx s hs).imp id (hkeep s)
    · rcases (hm.added n y hy hold).2.2 s hs with h | h | h
      · exact .inl h
      · exact .inr (hm.contains h)
      · exact .inr (hkeep s h)

theorem Merging.wellFormed : merged.WellFormed :=
  (hm.closed hrepo hcodes).wellFormed (hm.not_contains_unitName hrepo)

end Merging

section Absorbing
variable {es : List (String × Code String)} {start target : Codes}

/-- Entries of a map are absorbed by every part of it. -/
theorem absorb_eq_foldl (hstart : ∀ k x, start.get? k = some x → target.get? k = some x)
    (hes : ∀ e ∈ es, target.get? e.1 = some e.2) :
    absorb start es = (es.foldl (fun m e => m.insert e.1 e.2) start, none) := by
  induction es generalizing start with
  | nil => rfl
  | cons e es ih =>
    obtain ⟨n, y⟩ := e
    have hn : target.get? n = some y := hes _ List.mem_cons_self
    have hrest : ∀ e ∈ es, target.get? e.1 = some e.2 :=
      fun e he => hes e (List.mem_cons_of_mem _ he)
    rw [absorb, List.foldl_cons]
    cases hy : start.get? n with
    | none =>
      apply ih _ hrest
      intro k x hx
      rw [NameMap.get?_insert] at hx
      split_ifs at hx with hk
      · rw [hk, hn, hx]
      · exact hstart k x hx
    | some z =>
      obtain rfl : y = z := Option.some.inj (hn.symm.trans (hstart n z hy))
      rw [NameMap.insert_eq_self hy]
      simpa using ih hstart hrest

theorem absorb_entries (h : ∀ k x, start.get? k = some x → target.get? k = some x) :
    absorb start target.entries = (target, none) := by
  have hes : ∀ e ∈ target.entries, target.get? e.1 = some e.2 :=
    fun e he => NameMap.get?_eq_some_iff.2 he
  have hunion : start.union target = target := by
    apply NameMap.ext
    intro k
    rw [NameMap.get?_union]
    cases hk : target.get? k with
    | some x => rfl
    | none =>
      rw [Option.none_or, Option.eq_none_iff_forall_ne_some]
      intro x hx
      exact absurd (h k x hx) (by simp [hk])
  rw [absorb_eq_foldl h hes]
  exact congrArg (·, none) hunion

end Absorbing

section Names

theorem foldlM_enterName {h : String → String} {todo : List String}
    (hname : ∀ n ∈ todo, f.representatives.get? n = some (h n)) (start : NameMap String) :
    ∃ names, todo.foldlM (enterName f) start = .ok names ∧
      ∀ n, names.get? n = if n ∈ todo then some (h n) else start.get? n := by
  induction todo generalizing start with
  | nil => exact ⟨start, rfl, by simp⟩
  | cons m todo ih =>
    obtain ⟨names, hok, hget⟩ :=
      ih (fun n hn => hname n (List.mem_cons_of_mem m hn)) (start.insert m (h m))
    refine ⟨names, ?_, fun n => ?_⟩
    · rw [List.foldlM_cons, enterName, hname m List.mem_cons_self]
      exact hok
    · rw [hget, NameMap.get?_insert]
      by_cases hn : n ∈ todo <;> by_cases hm : n = m <;> simp [hn, hm]

theorem batchNames_eq {h : String → String}
    (hname : ∀ n, codes.contains n → f.representatives.get? n = some (h n)) :
    ∃ names, batchNames codes builtins f = .ok names ∧
      ∀ n, names.get? n = if codes.contains n then some (h n) else builtins.get? n := by
  have hname' : ∀ n ∈ codes.keys, f.representatives.get? n = some (h n) :=
    fun n hn => hname n (NameMap.mem_keys_iff.1 hn)
  obtain ⟨names, hok, hget⟩ := foldlM_enterName hname' builtins
  refine ⟨names, hok, fun n => ?_⟩
  rw [hget]
  simp only [NameMap.mem_keys_iff]

end Names

section Registering
variable (hrepo : repo.Consistent) (hcodes : ∀ n, codes.contains n → ¬Text.isBuiltin n)
  (hm : Merging repo codes [] merged)
include hrepo hcodes hm

/-- The entries of the repository have their names from the merged codes, too. -/
theorem Merging.canonicalName_entry (hk : repo.codes.contains k) :
    merged.canonicalName k = k := by
  have hclosed := hm.closed hrepo hcodes
  have hunit := hm.not_contains_unitName hrepo
  have hmerged : merged.contains k := by
    obtain ⟨x, hx⟩ := NameMap.contains_iff.1 hk
    exact NameMap.contains_of_get? (hm.kept k x hx)
  have hbis := hrepo.canonical.closed.bisimilar_of_le hm.kept hclosed.names (.inr hk)
  refine hrepo.canonical.canonicalName_eq (hm.wellFormed hrepo hcodes) hk ?_
  exact (hbis.trans (hclosed.bisimilar_withUnit hunit hmerged)).symm

/-- Finalizing the merged codes gives the entries of the repository back. -/
theorem Merging.get?_finalized (hf : merged.IsFinalization f) {x : Code String}
    (hx : repo.codes.get? k = some x) : f.codes.get? k = some x := by
  have hwf := hm.wellFormed hrepo hcodes
  have hk : k ≠ Text.unitName := by
    rintro rfl
    exact hrepo.canonical.not_contains_unitName (NameMap.contains_of_get? hx)
  rw [hf.codes]
  refine ⟨k, x, ?_, ?_, ?_⟩
  · rw [Codes.get?_withUnit merged hk]
    exact hm.kept k x hx
  · exact hm.canonicalName_entry hrepo hcodes (NameMap.contains_of_get? hx)
  · rw [← Code.alike_eq_iff, Code.alike_map_left_iff]
    refine (Code.alike_eq_iff.2 rfl).imp ?_
    rintro r hr _ _ rfl
    rcases hrepo.canonical.closed.refs k x hx r hr with h | h
    · exact Codes.canonicalName_of_not_contains fun hin => hwf.closed.names r hin h
    · exact hm.canonicalName_entry hrepo hcodes h

end Registering

section Outcome

/-- What a registration does if it succeeds. -/
structure Registered (repo : Repository) (codes : Codes) (builtins : NameMap String)
    (merged : Codes) (names : NameMap String) (next : Repository) : Prop where
  merging : Merging repo codes [] merged
  finalization : ∃ f, merged.IsFinalization f ∧ next.codes = f.codes
  answer : ∀ n, names.get? n =
    if codes.contains n then some (merged.canonicalName n) else builtins.get? n
  aliases : next.aliases = repo.aliases.union names

theorem registerWith_eq_ok {entries : Codes} (hmerge : repo.merge codes builtins = .ok merged)
    (hf : merged.finalize = .ok f) (habsorb : absorb repo.codes f.codes.entries = (entries, none))
    (hnames : batchNames codes builtins f = .ok names) :
    repo.registerWith codes builtins = (.ok names, ⟨entries, repo.aliases.union names⟩) := by
  simp only [registerWith, hmerge, hf, habsorb, hnames, bind, Except.bind]

variable (hrepo : repo.Consistent) (hcodes : ∀ n, codes.contains n → ¬Text.isBuiltin n)
  (hbuiltins : ∀ n b, builtins.get? n = some b → Text.isBuiltin b)
include hrepo hcodes hbuiltins

/-- Once the merged codes are finalized, nothing fails any more. -/
theorem registered_of_finalize (hmerge : repo.merge codes builtins = .ok merged)
    (hok : merged.finalize = .ok f) : ∃ names next,
      repo.registerWith codes builtins = (.ok names, next) ∧
      Registered repo codes builtins merged names next := by
  have hm := merging_of_merge hrepo hbuiltins hmerge
  obtain ⟨-, hf⟩ := (hm.wellFormed hrepo hcodes).finalize_eq_ok_iff.1 hok
  have habsorb : absorb repo.codes f.codes.entries = (f.codes, none) :=
    absorb_entries fun k x hx => hm.get?_finalized hrepo hcodes hf hx
  have hname : ∀ n, codes.contains n →
      f.representatives.get? n = some (merged.canonicalName n) := by
    intro n hn
    rw [hf.representatives, if_pos (Codes.contains_withUnit.2 (.inr (hm.contains hn)))]
  obtain ⟨names, hnames, hget⟩ := batchNames_eq hname
  exact ⟨names, _, registerWith_eq_ok hmerge hok habsorb hnames, hm, ⟨f, hf, rfl⟩, hget, rfl⟩

/-- Registering a batch fails and changes nothing, or enters the merged codes in canonical form. -/
theorem registerWith_cases : (∃ e, repo.registerWith codes builtins = (.error e, repo)) ∨
    ∃ merged names next, repo.merge codes builtins = .ok merged ∧
      repo.registerWith codes builtins = (.ok names, next) ∧
      Registered repo codes builtins merged names next := by
  cases hmerge : repo.merge codes builtins with
  | error e =>
    left
    exact ⟨e, by simp [registerWith, hmerge, bind, Except.bind]⟩
  | ok merged =>
    cases hok : merged.finalize with
    | error e =>
      left
      exact ⟨e, by simp [registerWith, hmerge, hok, bind, Except.bind]⟩
    | ok f =>
      right
      obtain ⟨names, next, hreg⟩ := registered_of_finalize hrepo hcodes hbuiltins hmerge hok
      exact ⟨merged, names, next, rfl, hreg⟩

theorem registered_of_eq_ok {next : Repository} (hmerge : repo.merge codes builtins = .ok merged)
    (h : repo.registerWith codes builtins = (.ok names, next)) :
    Registered repo codes builtins merged names next := by
  rcases registerWith_cases hrepo hcodes hbuiltins with
    ⟨e, he⟩ | ⟨merged', names', next', hm, hok, hreg⟩
  · rw [h] at he
    cases he
  · obtain rfl : merged = merged' := Except.ok.inj (hmerge.symm.trans hm)
    rw [h, Prod.mk.injEq, Except.ok.injEq] at hok
    obtain ⟨rfl, rfl⟩ := hok
    exact hreg

omit hbuiltins
variable {next : Repository} (h : Registered repo codes builtins merged names next)
include h

theorem Registered.kept (k : String) (x : Code String) (hx : repo.codes.get? k = some x) :
    next.codes.get? k = some x := by
  obtain ⟨f, hf, hnext⟩ := h.finalization
  rw [hnext]
  exact h.merging.get?_finalized hrepo hcodes hf hx

/-- A code of the batch has its tree under the name that is answered for it. -/
theorem Registered.exists_name (hn : codes.contains n) :
    ∃ a, names.get? n = some a ∧ next.codes.contains a ∧ merged.Bisimilar next.codes n a := by
  obtain ⟨f, hf, hnext⟩ := h.finalization
  have hclosed := h.merging.closed hrepo hcodes
  have hunit := h.merging.not_contains_unitName hrepo
  have hin := h.merging.contains hn
  have hin' := Codes.contains_withUnit.2 (.inr hin)
  refine ⟨merged.canonicalName n, by rw [h.answer, if_pos hn], ?_, ?_⟩
  · rw [hnext]
    exact hf.contains_iff.2 ⟨n, hin', rfl⟩
  · rw [hnext]
    exact (hclosed.bisimilar_withUnit hunit hin).trans
      (hf.bisimilar (h.merging.wellFormed hrepo hcodes) (.inr hin'))

include hbuiltins

/-- A registration keeps the repository consistent. -/
theorem Registered.consistent : next.Consistent where
  canonical := by
    obtain ⟨f, hf, hnext⟩ := h.finalization
    rw [hnext]
    exact hf.canonical (h.merging.wellFormed hrepo hcodes)
  unit := h.kept hrepo hcodes _ _ hrepo.unit
  aliases n c hc := by
    rw [h.aliases, NameMap.get?_union] at hc
    rcases Option.or_eq_some_iff.1 hc with hc | ⟨-, hc⟩
    · by_cases hn : codes.contains n
      · obtain ⟨a, ha, hin, -⟩ := h.exists_name hrepo hcodes hn
        obtain rfl : a = c := Option.some.inj (ha.symm.trans hc)
        exact .inr hin
      · rw [h.answer, if_neg hn] at hc
        exact .inl (hbuiltins n c hc)
    · refine (hrepo.aliases n c hc).imp id fun hin => ?_
      obtain ⟨x, hx⟩ := NameMap.contains_iff.1 hin
      exact NameMap.contains_of_get? (h.kept hrepo hcodes c x hx)

end Outcome

end StructuralTyping.Repository
