import StructuralTyping.Proofs.FailedRegistration

/-!
# Looking up what was registered

A name is looked up among the builtins, then among the entries, and among the aliases last, while a
registration enters every declared name among the aliases. The alias is found exactly if nothing
hides it, that is, if the name is neither a builtin nor an entry or stands for itself. Entries have
hashes for names, so the unit name is never hidden, and it keeps its meaning until it is declared as
an alias of a builtin.
-/
namespace StructuralTyping

namespace Codes
variable {c : Codes} {k : String} {f : Finalized}

theorem exists_hash_of_nameNext {normal : Codes} {named next : List (String × String)}
    (h : normal.nameNext named k = .ok next) :
    ∃ text, next = named ++ [(k, Text.contentHash text)] := by
  unfold nameNext at h
  cases htext : normal.encode k with
  | error e => simp [htext, bind, Except.bind] at h
  | ok text =>
    simp only [htext, bind, Except.bind] at h
    split at h
    · cases h
    · exact ⟨text, (Except.ok.inj h).symm⟩

/-- What holds while the codes are named and some are still to be done. -/
structure HashNaming (normal : Codes) (todo : List String) (named : List (String × String)) :
    Prop where
  done : ∀ k, normal.contains k → k ∈ todo ∨ k ∈ named.map (·.1)
  hash : ∀ e ∈ named, ∃ text, e.2 = Text.contentHash text

theorem hashNaming_of_canonicalNames {normal : Codes} {named : List (String × String)}
    (h : normal.canonicalNames = .ok named) : HashNaming normal [] named := by
  refine Repository.foldlM_ok ?_ ⟨fun k hk => .inl (NameMap.mem_keys_iff.2 hk), by simp⟩ h
  rintro n rest named next ⟨hdone, hhash⟩ hnext
  obtain ⟨text, rfl⟩ := exists_hash_of_nameNext hnext
  constructor
  · intro k hk
    have hk' := hdone k hk
    simp only [List.mem_cons, List.map_append, List.map_singleton, List.mem_append] at hk' ⊢
    tauto
  · intro e he
    rcases List.mem_append.1 he with he | he
    · exact hhash e he
    · exact ⟨text, by rw [List.mem_singleton.1 he]⟩

/-- Whatever the codes, they are finalized under hashes. -/
theorem exists_hash_of_finalize (h : c.finalize = .ok f) (hk : f.codes.contains k) :
    ∃ text, k = Text.contentHash text := by
  simp only [finalize, bind, Except.bind] at h
  split at h
  · cases h
  split at h
  · cases h
  case h_2 named hnamed =>
    obtain rfl := Except.ok.inj h
    obtain ⟨x, hx⟩ := NameMap.contains_iff.1 hk
    obtain ⟨⟨n, y⟩, hy, heq⟩ := List.mem_map.1 (NameMap.mem_of_get?_ofList hx)
    have hnaming := hashNaming_of_canonicalNames hnamed
    have hn := hnaming.done n (NameMap.contains_of_get? (NameMap.get?_eq_some_iff.2 hy))
    obtain ⟨hash, hlookup⟩ := NameMap.exists_lookup (hn.resolve_left List.not_mem_nil)
    obtain ⟨text, rfl⟩ : ∃ text, hash = Text.contentHash text :=
      hnaming.hash _ (NameMap.mem_of_lookup hlookup)
    refine ⟨text, ?_⟩
    simpa [hlookup] using (Prod.mk.inj heq).1.symm

end Codes

namespace Repository
variable {repo next : Repository} {codes : Codes} {builtins names : NameMap String}
  {declarations : NameMap Declaration} {call : Call} {calls : List Call} {k n : String}

section Declared

theorem contains_of_checkEntry {checked result : Codes × NameMap String}
    {entry : String × Declaration} (h : checkEntry checked entry = .ok result) :
    result.1.contains n ∨ result.2.contains n ↔
      n = entry.1 ∨ checked.1.contains n ∨ checked.2.contains n := by
  unfold checkEntry at h
  cases hcheck : entry.2.check entry.1 with
  | error e => simp [hcheck, Except.map] at h
  | ok definition =>
    simp only [hcheck, Except.map, Except.ok.injEq] at h
    subst h
    cases definition with
    | builtin b =>
      simp only [NameMap.contains_insert]
      tauto
    | code x =>
      simp only [NameMap.contains_insert]
      tauto

/-- Every declared name is that of a code or of a builtin. -/
theorem contains_iff_of_checkAll (h : checkAll declarations = .ok (codes, builtins)) :
    declarations.contains n ↔ codes.contains n ∨ builtins.contains n := by
  have hstep (entry : String × Declaration) (rest : List (String × Declaration))
      (checked result : Codes × NameMap String)
      (hchecked : declarations.contains n ↔
        (checked.1.contains n ∨ checked.2.contains n) ∨ n ∈ (entry :: rest).map (·.1))
      (hresult : checkEntry checked entry = .ok result) :
      declarations.contains n ↔
        (result.1.contains n ∨ result.2.contains n) ∨ n ∈ rest.map (·.1) := by
    rw [hchecked, contains_of_checkEntry hresult, List.map_cons, List.mem_cons]
    tauto
  have hstart : declarations.contains n ↔
      ((∅ : Codes).contains n ∨ (∅ : NameMap String).contains n) ∨
        n ∈ declarations.entries.map (·.1) := by
    rw [← NameMap.mem_keys_iff]
    simp [NameMap.contains, NameMap.keys]
  have hall := foldlM_ok (I := fun todo checked => declarations.contains n ↔
    (checked.1.contains n ∨ checked.2.contains n) ∨ n ∈ todo.map (·.1)) hstep hstart h
  simpa using hall

end Declared

section Answer

/-- A batch that is registered answers its own names and no others, and these become aliases. -/
theorem registerWith_answer (h : repo.registerWith codes builtins = (.ok names, next)) :
    next.aliases = repo.aliases.union names ∧
      (∀ n, names.contains n ↔ codes.contains n ∨ builtins.contains n) ∧
      names.get? Text.unitName = builtins.get? Text.unitName := by
  cases enters_of_eq h with
  | entered hmerge hfinalize habsorb hanswer =>
    refine ⟨rfl, fun n => ?_, ?_⟩
    · rw [NameMap.contains_iff, hanswer]
      split_ifs with hn
      · simp [hn]
      · rw [← NameMap.contains_iff, or_iff_right hn]
    · have hunit : ¬codes.contains Text.unitName :=
        fun hn => (contains_of_merge hmerge hn).2.2 rfl
      rw [hanswer, if_neg hunit]

theorem register_answer (h : repo.register declarations = (.ok names, next)) :
    next.aliases = repo.aliases.union names ∧
      (∀ n, names.contains n ↔ declarations.contains n) ∧
      ∀ a, names.get? Text.unitName = some a → Text.isBuiltin a := by
  unfold register at h
  cases hcheck : checkAll declarations with
  | error e => simp [hcheck] at h
  | ok checked =>
    obtain ⟨codes, builtins⟩ := checked
    simp only [hcheck] at h
    obtain ⟨haliases, hnames, hunit⟩ := registerWith_answer h
    refine ⟨haliases, fun n => ?_, fun a ha => ?_⟩
    · rw [hnames, contains_iff_of_checkAll hcheck]
    · rw [hunit] at ha
      exact (checking_of_checkAll hcheck).builtins _ a ha

/-- What was answered for a name is found under it exactly if nothing hides the alias. -/
theorem canonical_eq_answer_iff (haliases : next.aliases = repo.aliases.union names) {a : String}
    (ha : names.get? n = some a) :
    next.canonical n = some a ↔ a = n ∨ ¬Text.isBuiltin n ∧ ¬next.codes.contains n := by
  have hget : next.aliases.get? n = some a := by
    rw [haliases, NameMap.get?_union, ha, Option.some_or]
  unfold canonical
  by_cases hhidden : Text.isBuiltin n || next.codes.contains n
  · rw [if_pos hhidden, Option.some.injEq]
    rw [Bool.or_eq_true] at hhidden
    constructor
    · exact fun h => .inl h.symm
    · rintro (rfl | hfree)
      · rfl
      · exact absurd hhidden (not_or.2 hfree)
  · rw [if_neg hhidden, hget]
    rw [Bool.or_eq_true, not_or] at hhidden
    exact iff_of_true rfl (.inr hhidden)

end Answer

section UnitName

theorem contains_of_absorb {start entries : Codes} {es : List (String × Code String)}
    {changed : Option String} (h : absorb start es = (entries, changed))
    (hk : entries.contains k) : start.contains k ∨ k ∈ es.map (·.1) := by
  induction es generalizing start with
  | nil =>
    obtain rfl : start = entries := (Prod.mk.inj h).1
    exact .inl hk
  | cons entry rest ih =>
    obtain ⟨n, x⟩ := entry
    rw [List.map_cons, List.mem_cons]
    rw [absorb] at h
    split at h
    case h_1 =>
      have hrest := ih h
      rw [NameMap.contains_insert] at hrest
      tauto
    case h_2 =>
      split_ifs at h
      · exact (ih h).imp_right .inr
      · obtain rfl : start = entries := (Prod.mk.inj h).1
        exact .inl hk

/-- A batch adds entries under hashes only, whether it is registered or not. -/
theorem exists_hash_of_registerWith (hk : (repo.registerWith codes builtins).2.codes.contains k) :
    repo.codes.contains k ∨ ∃ text, k = Text.contentHash text := by
  have habsorbed {f : Codes.Finalized} {merged entries : Codes} {changed : Option String}
      (hfinalize : merged.finalize = .ok f)
      (habsorb : absorb repo.codes f.codes.entries = (entries, changed))
      (hk : entries.contains k) : repo.codes.contains k ∨ ∃ text, k = Text.contentHash text := by
    refine (contains_of_absorb habsorb hk).imp_right fun hmem => ?_
    exact Codes.exists_hash_of_finalize hfinalize (NameMap.mem_keys_iff.1 hmem)
  cases hregister : repo.registerWith codes builtins with
  | mk result next =>
    rw [hregister] at hk
    cases enters_of_eq hregister with
    | unmerged hmerge => exact .inl hk
    | unfinalized hmerge hfinalize => exact .inl hk
    | changed hmerge hfinalize habsorb => exact habsorbed hfinalize habsorb hk
    | entered hmerge hfinalize habsorb hanswer => exact habsorbed hfinalize habsorb hk

/-- The unit name is not declared. A code under that name would be refused anyway. -/
def Call.SparesUnit : Call → Prop
  | register declarations => ¬declarations.contains Text.unitName
  | registerCodes _ => True
  | reset => True

/-- The unit name stands for the empty product. -/
structure KnowsUnit (repo : Repository) : Prop where
  entry : ¬repo.codes.contains Text.unitName
  unit : repo.aliases.get? Text.unitName = some unit

theorem KnowsUnit.canonical_eq (h : repo.KnowsUnit) :
    repo.canonical Text.unitName = some Repository.unit := by
  have hbuiltin : ¬Text.isBuiltin Text.unitName := by decide
  simp [canonical, h.entry, hbuiltin, h.unit]

theorem initial_knowsUnit : initial.KnowsUnit where
  entry := by decide +kernel
  unit := by decide +kernel

theorem KnowsUnit.registerWith (hrepo : repo.KnowsUnit)
    (hunit : ¬builtins.contains Text.unitName) :
    (repo.registerWith codes builtins).2.KnowsUnit where
  entry hin := by
    rcases exists_hash_of_registerWith hin with hin | ⟨text, htext⟩
    · exact hrepo.entry hin
    · exact Text.contentHash_ne_unitName text htext.symm
  unit := by
    cases hregister : repo.registerWith codes builtins with
    | mk result next =>
      cases result with
      | error e => rw [(registerWith_eq_error hregister).1, hrepo.unit]
      | ok names =>
        obtain ⟨haliases, -, hnames⟩ := registerWith_answer hregister
        rw [haliases, NameMap.get?_union, hnames, NameMap.get?_eq_none_iff.2 hunit, Option.none_or,
          hrepo.unit]

theorem KnowsUnit.after (hrepo : repo.KnowsUnit) (hcall : call.SparesUnit) :
    (repo.after call).KnowsUnit := by
  cases call with
  | register declarations =>
    rw [Repository.after, register]
    cases hcheck : checkAll declarations with
    | error e => exact hrepo
    | ok checked =>
      obtain ⟨codes, builtins⟩ := checked
      exact hrepo.registerWith fun hin => hcall ((contains_iff_of_checkAll hcheck).2 (.inr hin))
  | registerCodes codes => exact hrepo.registerWith (by simp [NameMap.contains])
  | reset => exact initial_knowsUnit

theorem KnowsUnit.foldl_after (hrepo : repo.KnowsUnit)
    (hcalls : ∀ call ∈ calls, call.SparesUnit) :
    (calls.foldl Repository.after repo).KnowsUnit := by
  induction calls generalizing repo with
  | nil => exact hrepo
  | cons call calls ih =>
    have hnext := hrepo.after (hcalls call List.mem_cons_self)
    exact ih hnext fun c hc => hcalls c (List.mem_cons_of_mem call hc)

/-- An alias of a builtin under the unit name takes its meaning away. -/
theorem KnowsUnit.canonical_eq_iff (hrepo : repo.KnowsUnit)
    (h : repo.register declarations = (.ok names, next)) :
    next.canonical Text.unitName = some Repository.unit ↔
      ¬declarations.contains Text.unitName := by
  obtain ⟨haliases, hnames, hbuiltin⟩ := register_answer h
  constructor
  · intro hunit hdeclared
    obtain ⟨a, ha⟩ := NameMap.contains_iff.1 ((hnames _).2 hdeclared)
    unfold Repository.canonical at hunit
    split_ifs at hunit
    · exact Text.contentHash_ne_unitName _ (Option.some.inj hunit).symm
    · rw [haliases, NameMap.get?_union, ha, Option.some_or, Option.some.injEq] at hunit
      exact Text.contentHash_not_isBuiltin _ (hunit ▸ hbuiltin a ha)
  · intro hspared
    have hnext : (repo.after (.register declarations)).KnowsUnit := hrepo.after hspared
    rw [Repository.after, h] at hnext
    exact hnext.canonical_eq

end UnitName

/-- After a registration, the name answered for a declared name is found under it unless a builtin
or an entry of that name hides it. The unit name means the empty product as long as it is not
declared. -/
theorem canonical_registered (calls : List Call) (declarations : NameMap Declaration)
    (h : (calls.foldl Repository.after initial).register declarations = (.ok names, next)) :
    (∀ n, declarations.contains n → ∃ a, names.get? n = some a ∧
      (next.canonical n = some a ↔ a = n ∨ ¬Text.isBuiltin n ∧ ¬next.codes.contains n)) ∧
    ((∀ call ∈ calls, call.SparesUnit) →
      (next.canonical Text.unitName = some unit ↔ ¬declarations.contains Text.unitName)) := by
  obtain ⟨haliases, hnames, -⟩ := register_answer h
  constructor
  · intro n hn
    obtain ⟨a, ha⟩ := NameMap.contains_iff.1 ((hnames n).2 hn)
    exact ⟨a, ha, canonical_eq_answer_iff haliases ha⟩
  · intro hcalls
    exact (initial_knowsUnit.foldl_after hcalls).canonical_eq_iff h

/-- The stream of integers, unrolled, and another name for the truth values. -/
def aliasedStream : NameMap Declaration :=
  (Codes.unrolledStream.map Declaration.ofCode).insert "flag" (.builtin "@bool")

theorem canonical_registered_stream :
    ∃ names next, ([.registerCodes Codes.loopedStream].foldl Repository.after initial).register
        aliasedStream = (.ok names, next) ∧
      names.get? "T" = some "rArHSMQzZK" ∧ next.canonical "T" = some "rArHSMQzZK" ∧
      names.get? "flag" = some "@bool" ∧ next.canonical "flag" = some "@bool" ∧
      next.canonical Text.unitName = some unit := by
  have h : ([.registerCodes Codes.loopedStream].foldl Repository.after initial).register
      aliasedStream = (.ok (unrolledRegistration.names.insert "flag" "@bool"),
        ⟨streamEntries, (initial.aliases.union loopedRegistration.names).union
          (unrolledRegistration.names.insert "flag" "@bool")⟩) := by decide +kernel
  obtain ⟨hfound, hunit⟩ := canonical_registered _ _ h
  obtain ⟨a, ha, hcanonical⟩ := hfound "T" (by decide)
  obtain ⟨b, hb, hcanonical'⟩ := hfound "flag" (by decide)
  obtain rfl : "rArHSMQzZK" = a := by
    apply Option.some.inj
    rw [← ha]
    decide +kernel
  obtain rfl : "@bool" = b := by
    apply Option.some.inj
    rw [← hb]
    decide +kernel
  refine ⟨_, _, h, ha, hcanonical.2 ?_, hb, hcanonical'.2 ?_, (hunit ?_).2 ?_⟩
  · exact .inr (by decide +kernel)
  · exact .inr (by decide +kernel)
  · simp [Call.SparesUnit]
  · decide

/-- Aliases of builtins under the name of an entry and under a builtin name. -/
def hidingAliases : NameMap Declaration :=
  .ofList [("@int", .builtin "@bool"), ("DBO", .builtin "@int")]

/-- Aliases under the name of an entry or a builtin are answered and not found, and an alias under
the unit name is found in the place of the empty product. -/
theorem canonical_hidden :
    (∃ names next, initial.register hidingAliases = (.ok names, next) ∧
      names.get? "DBO" = some "@int" ∧ next.canonical "DBO" = some "DBO" ∧
      names.get? "@int" = some "@bool" ∧ next.canonical "@int" = some "@int") ∧
    ∃ names next, initial.register (.ofList [(Text.unitName, .builtin "@int")]) =
      (.ok names, next) ∧ next.canonical Text.unitName = some "@int" ∧ "@int" ≠ unit := by
  have hhidden : initial.register hidingAliases =
      (.ok (.ofList [("@int", "@bool"), ("DBO", "@int")]),
        ⟨initial.codes, initial.aliases.union (.ofList [("@int", "@bool"), ("DBO", "@int")])⟩) := by
    decide +kernel
  have hunit : initial.register (.ofList [(Text.unitName, .builtin "@int")]) =
      (.ok (.ofList [(Text.unitName, "@int")]),
        ⟨initial.codes, .ofList [(Text.unitName, "@int")]⟩) := by
    decide +kernel
  exact ⟨⟨_, _, hhidden, by decide +kernel⟩, _, _, hunit, by decide +kernel⟩

end Repository

end StructuralTyping
