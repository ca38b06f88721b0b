import StructuralTyping.Proofs.Registration

/-!
# Histories of registrations

A repository changes by calls, of which those that fail leave it as it was. Whatever the calls, it
stays consistent, as long as no code is declared under a builtin name. Entries are never lost, so
the trees of all batches registered so far can be found in the entries, each under the name that was
answered when its batch was registered. Hence the names that were answered in the course of a
history, early or late, tell exactly the different trees apart.
-/
namespace StructuralTyping.Repository

/-- What may change a repository. -/
inductive Call
  | register (declarations : NameMap Declaration)
  | registerCodes (codes : Codes)
  | reset

/-- No code is declared under a builtin name. An alias of a builtin may have any name. -/
def Call.Admissible : Call → Prop
  | register declarations => ∀ n declaration, declarations.get? n = some declaration →
      Text.isBuiltin n → ∃ b, declaration = .builtin b
  | registerCodes codes => ∀ n, codes.contains n → ¬Text.isBuiltin n
  | reset => True

/-- The repository after a call, whether the call succeeds or not. -/
def after (repo : Repository) : Call → Repository
  | .register declarations => (repo.register declarations).2
  | .registerCodes codes => (repo.registerCodes codes).2
  | .reset => initial

variable {repo next : Repository} {call : Call} {codes : Codes} {builtins names : NameMap String}
  {declarations : NameMap Declaration} {n m : String}

section Declarations

theorem isBuiltin_of_check {declaration : Declaration} {b : String}
    (h : declaration.check n = .ok (.builtin b)) : Text.isBuiltin b := by
  cases declaration with
  | builtin c =>
    simp only [Declaration.check] at h
    split_ifs at h with hc
    · obtain rfl : c = b := by simpa using h
      exact hc
  | code tag product union vector =>
    simp only [Declaration.check] at h
    split_ifs at h <;> split at h <;> cases h

theorem ne_builtin_of_check {declaration : Declaration} {x : Code String}
    (h : declaration.check n = .ok (.code x)) (b : String) : declaration ≠ .builtin b := by
  rintro rfl
  simp only [Declaration.check] at h
  split_ifs at h
  cases h

/-- What holds while declarations are checked and some are still to be done. -/
structure Checking (declarations : NameMap Declaration) (todo : List (String × Declaration))
    (checked : Codes × NameMap String) : Prop where
  pending : ∀ e ∈ todo, declarations.get? e.1 = some e.2
  codes : ∀ n x, checked.1.get? n = some x →
    ∃ declaration, declarations.get? n = some declaration ∧ declaration.check n = .ok (.code x)
  builtins : ∀ n b, checked.2.get? n = some b → Text.isBuiltin b

theorem Checking.step {e : String × Declaration} {todo : List (String × Declaration)}
    {checked result : Codes × NameMap String} (h : Checking declarations (e :: todo) checked)
    (hresult : checkEntry checked e = .ok result) : Checking declarations todo result := by
  have hpending : ∀ e ∈ todo, declarations.get? e.1 = some e.2 :=
    fun e he => h.pending e (List.mem_cons_of_mem _ he)
  unfold checkEntry at hresult
  cases hcheck : e.2.check e.1 with
  | error err => simp [hcheck, Except.map] at hresult
  | ok definition =>
    simp only [hcheck, Except.map, Except.ok.injEq] at hresult
    subst hresult
    cases definition with
    | builtin b =>
      refine ⟨hpending, h.codes, fun n c hc => ?_⟩
      simp only [NameMap.get?_insert] at hc
      split_ifs at hc with hn
      · obtain rfl := Option.some.inj hc
        exact isBuiltin_of_check hcheck
      · exact h.builtins n c hc
    | code x =>
      refine ⟨hpending, fun n y hy => ?_, h.builtins⟩
      simp only [NameMap.get?_insert] at hy
      split_ifs at hy with hn
      · obtain rfl := Option.some.inj hy
        exact ⟨e.2, hn ▸ h.pending e List.mem_cons_self, hn ▸ hcheck⟩
      · exact h.codes n y hy

theorem checking_of_checkAll (h : checkAll declarations = .ok (codes, builtins)) :
    Checking declarations [] (codes, builtins) := by
  refine foldlM_ok (fun _ _ _ _ => Checking.step) ⟨fun e he => ?_, ?_, ?_⟩ h
  · exact NameMap.get?_eq_some_iff.2 he
  · intro n x hx
    simp at hx
  · intro n b hb
    simp at hb

theorem Call.Admissible.not_isBuiltin (h : (Call.register declarations).Admissible)
    (hcheck : checkAll declarations = .ok (codes, builtins)) (n : String)
    (hn : codes.contains n) : ¬Text.isBuiltin n := by
  intro hbuiltin
  obtain ⟨x, hx⟩ := NameMap.contains_iff.1 hn
  obtain ⟨declaration, hdecl, hchecked⟩ := (checking_of_checkAll hcheck).codes n x hx
  obtain ⟨b, hb⟩ := h n declaration hdecl hbuiltin
  exact ne_builtin_of_check hchecked b hb

end Declarations

section Invariant

theorem get?_initial_codes (k : String) :
    initial.codes.get? k = if k = unit then some .unit else none := by
  rw [initial, NameMap.get?_insert]
  rfl

theorem get?_initial_aliases (n : String) :
    initial.aliases.get? n = if n = Text.unitName then some unit else none :=
  NameMap.get?_insert NameMap.empty Text.unitName n unit

theorem eq_unit_of_contains_initial (h : initial.codes.contains n) : n = unit := by
  by_contra hn
  simp [NameMap.contains, get?_initial_codes, hn] at h

theorem initial_codes_canonical : initial.codes.Canonical where
  closed := by
    refine ⟨fun n hn => ?_, fun n x hx r hr => ?_⟩
    · rw [eq_unit_of_contains_initial hn]
      exact Text.contentHash_not_isBuiltin _
    · obtain rfl := eq_unit_of_contains_initial (NameMap.contains_of_get? hx)
      rw [get?_initial_codes, if_pos rfl, Option.some.injEq] at hx
      rw [← hx] at hr
      exact absurd hr List.not_mem_nil
  reduced a b ha hb _ := by
    rw [eq_unit_of_contains_initial ha, eq_unit_of_contains_initial hb]
  named k hk := by
    rw [eq_unit_of_contains_initial hk]
    exact ⟨"$C0=\x7b\x7d;", by decide +kernel, by decide +kernel⟩

theorem initial_consistent : initial.Consistent where
  canonical := initial_codes_canonical
  unit := by rw [get?_initial_codes, if_pos rfl]
  aliases n c hc := by
    rw [get?_initial_aliases] at hc
    split_ifs at hc
    obtain rfl := Option.some.inj hc
    exact .inr (NameMap.contains_of_get? (by rw [get?_initial_codes, if_pos rfl]))

theorem registerWith_consistent (hrepo : repo.Consistent)
    (hcodes : ∀ n, codes.contains n → ¬Text.isBuiltin n)
    (hbuiltins : ∀ n b, builtins.get? n = some b → Text.isBuiltin b) :
    (repo.registerWith codes builtins).2.Consistent := by
  rcases registerWith_cases hrepo hcodes hbuiltins with ⟨e, he⟩ | ⟨merged, names, next, -, hok, h⟩
  · rw [he]
    exact hrepo
  · rw [hok]
    exact h.consistent hrepo hcodes hbuiltins

/-- A call leaves a consistent repository consistent. -/
theorem Consistent.after (hrepo : repo.Consistent) (hcall : call.Admissible) :
    (repo.after call).Consistent := by
  cases call with
  | register declarations =>
    rw [Repository.after, register]
    cases hcheck : checkAll declarations with
    | error e => exact hrepo
    | ok checked =>
      obtain ⟨codes, builtins⟩ := checked
      exact registerWith_consistent hrepo (hcall.not_isBuiltin hcheck)
        (checking_of_checkAll hcheck).builtins
  | registerCodes codes => exact registerWith_consistent hrepo hcall (by simp)
  | reset => exact initial_consistent

theorem Consistent.foldl_after {calls : List Call} (hrepo : repo.Consistent)
    (hcalls : ∀ call ∈ calls, call.Admissible) :
    (calls.foldl Repository.after repo).Consistent := by
  induction calls generalizing repo with
  | nil => exact hrepo
  | cons call calls ih =>
    have hnext := hrepo.after (hcalls call List.mem_cons_self)
    exact ih hnext fun c hc => hcalls c (List.mem_cons_of_mem call hc)

/-- Every repository that calls can lead to is consistent. -/
theorem consistent_after_calls (calls : List Call) (hcalls : ∀ call ∈ calls, call.Admissible) :
    (calls.foldl Repository.after initial).Consistent :=
  initial_consistent.foldl_after hcalls

theorem admissible_ofCode (h : ∀ n, codes.contains n → ¬Text.isBuiltin n) :
    (Call.register (codes.map .ofCode)).Admissible := by
  intro n declaration hn hbuiltin
  rw [NameMap.get?_map] at hn
  obtain ⟨x, hx, -⟩ := Option.map_eq_some_iff.1 hn
  exact absurd hbuiltin (h n (NameMap.contains_of_get? hx))

/-- Calls that succeed, fail, forget and start again. -/
def streamCalls : List Call :=
  [.registerCodes Codes.loopedStream, .registerCodes (.ofList [(Text.unitName, .unit)]), .reset,
    .register (Codes.unrolledStream.map .ofCode)]

theorem streamCalls_admissible : ∀ call ∈ streamCalls, call.Admissible := by
  have hlooped : Codes.loopedStream.WellFormed := by decide
  have hunit : Codes.WellFormed (.ofList [(Text.unitName, .unit)]) := by decide
  have hunrolled : Codes.unrolledStream.WellFormed := by decide
  simp only [streamCalls, List.forall_mem_cons]
  exact ⟨hlooped.names, hunit.names, trivial, admissible_ofCode hunrolled.names, by simp⟩

theorem consistent_after_streamCalls : (∀ call ∈ streamCalls, call.Admissible) ∧
    (streamCalls.foldl Repository.after initial).Consistent :=
  ⟨streamCalls_admissible, consistent_after_calls streamCalls streamCalls_admissible⟩

end Invariant

section History

/-- What is known of a batch that was registered. -/
structure Registration where
  codes : Codes
  /-- The codes, with references resolved, and the entries at the time. -/
  merged : Codes
  /-- The canonical names that were answered. -/
  names : NameMap String

/-- A call that registers a batch. -/
inductive Registers (repo : Repository) : Call → Registration → Repository → Prop
  | register {declarations codes builtins merged names next}
      (hcheck : checkAll declarations = .ok (codes, builtins))
      (hmerge : repo.merge codes builtins = .ok merged)
      (hok : repo.register declarations = (.ok names, next)) :
      Registers repo (.register declarations) ⟨codes, merged, names⟩ next
  | registerCodes {codes merged names next} (hmerge : repo.merge codes ∅ = .ok merged)
      (hok : repo.registerCodes codes = (.ok names, next)) :
      Registers repo (.registerCodes codes) ⟨codes, merged, names⟩ next

/-- The batches registered since the beginning, the last one first, and the repository they lead
to. -/
inductive History : List Registration → Repository → Prop
  | start : History [] initial
  | register {past repo call r next} (hpast : History past repo) (hcall : call.Admissible)
      (hnext : Registers repo call r next) : History (r :: past) next

variable {r s : Registration} {past : List Registration}

theorem Registers.registered (hrepo : repo.Consistent) (hcall : call.Admissible)
    (h : Registers repo call r next) :
    ∃ builtins, (∀ n, r.codes.contains n → ¬Text.isBuiltin n) ∧
      (∀ n b, builtins.get? n = some b → Text.isBuiltin b) ∧
      Registered repo r.codes builtins r.merged r.names next := by
  cases h with
  | @register _ codes builtins _ _ _ hcheck hmerge hok =>
    have hcodes := hcall.not_isBuiltin hcheck
    have hbuiltins := (checking_of_checkAll hcheck).builtins
    simp only [Repository.register, hcheck] at hok
    exact ⟨builtins, hcodes, hbuiltins, registered_of_eq_ok hrepo hcodes hbuiltins hmerge hok⟩
  | registerCodes hmerge hok =>
    have hbuiltins (n b : String) (h : (∅ : NameMap String).get? n = some b) :
        Text.isBuiltin b := by simp at h
    exact ⟨∅, hcall, hbuiltins, registered_of_eq_ok hrepo hcall hbuiltins hmerge hok⟩

/-- The tree of every code that was registered is in the repository, under the name answered. -/
theorem History.exists_name (h : History past repo) : repo.Consistent ∧
    ∀ r ∈ past, ∀ n, r.codes.contains n → ∃ a, r.names.get? n = some a ∧
      repo.codes.contains a ∧ r.merged.Bisimilar repo.codes n a := by
  induction h with
  | start => exact ⟨initial_consistent, by simp⟩
  | @register past repo call r next _ hcall hnext ih =>
    obtain ⟨hrepo, hnames⟩ := ih
    obtain ⟨builtins, hcodes, hbuiltins, hreg⟩ := hnext.registered hrepo hcall
    have hcons := hreg.consistent hrepo hcodes hbuiltins
    refine ⟨hcons, fun s hs n hn => ?_⟩
    rcases List.mem_cons.1 hs with rfl | hs
    · exact hreg.exists_name hrepo hcodes hn
    · -- Entries are never lost, so what was registered before is still where it was.
      obtain ⟨a, ha, hin, hbis⟩ := hnames s hs n hn
      have hkept := hreg.kept hrepo hcodes
      obtain ⟨x, hx⟩ := NameMap.contains_iff.1 hin
      have hstep := hrepo.canonical.closed.bisimilar_of_le hkept
        hcons.canonical.closed.names (.inr hin)
      exact ⟨a, ha, NameMap.contains_of_get? (hkept a x hx), hbis.trans hstep⟩

/-- The names answered for two codes, in the same call or in different calls, are equal exactly if
the codes unfold to the same tree. -/
theorem names_eq_iff_tree_eq (h : History past repo) (hr : r ∈ past) (hs : s ∈ past)
    (hn : r.codes.contains n) (hm : s.codes.contains m) :
    ∃ a b, r.names.get? n = some a ∧ s.names.get? m = some b ∧
      (a = b ↔ r.merged.tree n = s.merged.tree m) := by
  obtain ⟨hrepo, hnames⟩ := h.exists_name
  obtain ⟨a, ha, hain, hna⟩ := hnames r hr n hn
  obtain ⟨b, hb, hbin, hmb⟩ := hnames s hs m hm
  refine ⟨a, b, ha, hb, ?_⟩
  rw [← Codes.bisimilar_iff_tree_eq]
  constructor
  · rintro rfl
    exact hna.trans hmb.symm
  · intro hnm
    exact hrepo.canonical.reduced a b hain hbin ((hna.symm.trans hnm).trans hmb)

/-- The entries once a stream of integers is registered. -/
def streamEntries : Codes :=
  .ofList [("DBO", .unit),
    ("rArHSMQzZK", .product (.ofList [("head", "@int"), ("tail", "rArHSMQzZK")]))]

def loopedRegistration : Registration where
  codes := Codes.loopedStream
  merged := Codes.loopedStream.insert "DBO" .unit
  names := .ofList [("S", "rArHSMQzZK")]

def unrolledRegistration : Registration where
  codes := Codes.unrolledStream
  merged := streamEntries.union Codes.unrolledStream
  names := .ofList [("T", "rArHSMQzZK"), ("U", "rArHSMQzZK")]

/-- The stream and the empty product, however the merged codes named them. -/
def streamFinalized (representatives : NameMap String) : Codes.Finalized where
  codes := streamEntries
  representatives := representatives.union (.ofList [("DBO", "DBO"), (Text.unitName, "DBO")])

theorem registers_looped : Registers initial (.registerCodes Codes.loopedStream) loopedRegistration
    ⟨streamEntries, initial.aliases.union loopedRegistration.names⟩ := by
  have hmerge : initial.merge Codes.loopedStream ∅ = .ok loopedRegistration.merged := by
    decide +kernel
  have hf : loopedRegistration.merged.finalize =
      .ok (streamFinalized loopedRegistration.names) := by decide +kernel
  have habsorb : absorb initial.codes streamEntries.entries = (streamEntries, none) := by
    decide +kernel
  have hnames : batchNames Codes.loopedStream ∅ (streamFinalized loopedRegistration.names) =
      .ok loopedRegistration.names := by decide +kernel
  exact .registerCodes hmerge (registerWith_eq_ok hmerge hf habsorb hnames)

theorem registers_unrolled {aliases : NameMap String} :
    Registers ⟨streamEntries, aliases⟩ (.register (Codes.unrolledStream.map .ofCode))
      unrolledRegistration ⟨streamEntries, aliases.union unrolledRegistration.names⟩ := by
  have hcheck : checkAll (Codes.unrolledStream.map .ofCode) = .ok (Codes.unrolledStream, ∅) := by
    decide +kernel
  have hmerge : merge ⟨streamEntries, aliases⟩ Codes.unrolledStream ∅ =
      .ok unrolledRegistration.merged := by rfl
  have hf : unrolledRegistration.merged.finalize = .ok (streamFinalized
      (unrolledRegistration.names.insert "rArHSMQzZK" "rArHSMQzZK")) := by decide +kernel
  have habsorb : absorb streamEntries streamEntries.entries = (streamEntries, none) := by
    decide +kernel
  have hnames : batchNames Codes.unrolledStream ∅ (streamFinalized
      (unrolledRegistration.names.insert "rArHSMQzZK" "rArHSMQzZK")) =
      .ok unrolledRegistration.names := by decide +kernel
  refine .register hcheck hmerge ?_
  simp only [register, hcheck]
  exact registerWith_eq_ok hmerge hf habsorb hnames

/-- A stream registered as a loop and registered again unrolled. -/
theorem streams_history : History [unrolledRegistration, loopedRegistration]
    ⟨streamEntries, (initial.aliases.union loopedRegistration.names).union
      unrolledRegistration.names⟩ := by
  have hlooped : (Call.registerCodes Codes.loopedStream).Admissible :=
    Codes.WellFormed.names (by decide)
  have hunrolled : (Call.register (Codes.unrolledStream.map .ofCode)).Admissible :=
    admissible_ofCode (Codes.WellFormed.names (by decide))
  exact .register (.register .start hlooped registers_looped) hunrolled registers_unrolled

theorem names_eq_iff_tree_eq_streams :
    History [unrolledRegistration, loopedRegistration]
      ⟨streamEntries, (initial.aliases.union loopedRegistration.names).union
        unrolledRegistration.names⟩ ∧
    loopedRegistration.codes.contains "S" ∧ unrolledRegistration.codes.contains "T" ∧
    ∃ a b, loopedRegistration.names.get? "S" = some a ∧
      unrolledRegistration.names.get? "T" = some b ∧
      (a = b ↔ loopedRegistration.merged.tree "S" = unrolledRegistration.merged.tree "T") :=
  ⟨streams_history, by decide, by decide,
    names_eq_iff_tree_eq streams_history (by simp) (by simp) (by decide) (by decide)⟩

end History

end StructuralTyping.Repository
