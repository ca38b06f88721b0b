import StructuralTyping.Proofs.RegistrationHistory

/-!
# Registrations that fail

A registration that fails forgets nothing: all entries and aliases stay. It may leave new entries
behind only if an entry turns out to be changed by the batch, which takes a code under a builtin
name, now or earlier. Without such codes a failed registration leaves the repository exactly as it
was, and the only internal error is the report that two different trees have the same hash.
-/
namespace StructuralTyping

namespace NameMap
variable {α β ε : Type} {f : α → Except ε β} {e : ε}

theorem exists_of_traverseEntries_eq_error {es : List (String × α)}
    (h : traverseEntries f es = .error e) : ∃ entry ∈ es, f entry.2 = .error e := by
  induction es with
  | nil => cases h
  | cons entry rest ih =>
    obtain ⟨key, value⟩ := entry
    rw [traverseEntries] at h
    split at h
    case h_1 err herr =>
      obtain rfl := Except.error.inj h
      exact ⟨(key, value), List.mem_cons_self, herr⟩
    case h_2 =>
      split at h
      case h_1 err hrest =>
        obtain rfl := Except.error.inj h
        obtain ⟨entry, hmem, hentry⟩ := ih hrest
        exact ⟨entry, List.mem_cons_of_mem _ hmem, hentry⟩
      case h_2 => cases h

theorem exists_of_traverse_eq_error {m : NameMap α} (h : m.traverse f = .error e) :
    ∃ value ∈ m.values, f value = .error e := by
  unfold traverse at h
  cases hr : traverseEntries f m.entries with
  | error err =>
    simp only [hr, Except.map, Except.error.injEq] at h
    obtain ⟨entry, hmem, hentry⟩ := exists_of_traverseEntries_eq_error hr
    exact ⟨entry.2, List.mem_map_of_mem hmem, h ▸ hentry⟩
  | ok r => simp [hr, Except.map] at h

end NameMap

namespace Code

theorem exists_of_traverse_eq_error {ρ τ ε : Type} {f : ρ → Except ε τ} {x : Code ρ} {e : ε}
    (h : x.traverse f = .error e) : ∃ r ∈ x.refs, f r = .error e := by
  have hmap {σ υ : Type} {g : σ → υ} {result : Except ε σ} (h : result.map g = .error e) :
      result = .error e := by
    cases result <;> simp_all [Except.map]
  cases x with
  | product fields => exact NameMap.exists_of_traverse_eq_error (hmap h)
  | union fields => exact NameMap.exists_of_traverse_eq_error (hmap h)
  | vector element => exact ⟨element, List.mem_singleton_self element, hmap h⟩

end Code

namespace Codes
variable {c : Codes} {k : String} {e : CodeError}

/-- The report that two different trees of the map have the same hash. -/
def ReportsCollision (codes : Codes) (reason : String) : Prop :=
  ∃ a b, codes.withUnit.contains a ∧ codes.withUnit.contains b ∧
    ¬codes.withUnit.Bisimilar codes.withUnit a b ∧
    codes.canonicalName a = codes.canonicalName b ∧
    reason = s!"{a} and {b} are different codes with the same hash {codes.canonicalName b}"

theorem nameNext_eq_error {normal : Codes} {named : List (String × String)} {text : String}
    (htext : normal.encode k = .ok text) (h : normal.nameNext named k = .error e) :
    ∃ other ∈ named, other.2 = Text.contentHash text ∧ e = .impossible
      s!"{other.1} and {k} are different codes with the same hash {Text.contentHash text}" := by
  simp only [nameNext, htext, bind, Except.bind] at h
  cases hfind : named.find? (·.2 = Text.contentHash text) with
  | none => simp [hfind] at h
  | some other =>
    simp only [hfind, Except.error.injEq] at h
    have hother := List.find?_some hfind
    exact ⟨other, List.mem_of_find?_eq_some hfind, of_decide_eq_true hother, h.symm⟩

/-- Naming one code after the other fails only at a code that has the hash of an earlier one. -/
theorem foldlM_nameNext_eq_error {normal : Codes} {h : String → String} {names : List String}
    (hname : ∀ k ∈ names, ∃ text, normal.encode k = .ok text ∧ h k = Text.contentHash text)
    {named : List (String × String)} (hnamed : ∀ e ∈ named, e.2 = h e.1)
    (hnodup : (named.map (·.1) ++ names).Nodup)
    (herror : names.foldlM normal.nameNext named = .error e) :
    ∃ a ∈ named.map (·.1) ++ names, ∃ b ∈ names, a ≠ b ∧ h a = h b ∧
      e = .impossible s!"{a} and {b} are different codes with the same hash {h b}" := by
  induction names generalizing named with
  | nil => cases herror
  | cons k names ih =>
    obtain ⟨text, htext, hk⟩ := hname k List.mem_cons_self
    rw [List.foldlM_cons] at herror
    by_cases htaken : Text.contentHash text ∈ named.map (·.2)
    · obtain ⟨err, herr⟩ := nameNext_of_taken htext htaken
      simp only [herr, bind, Except.bind, Except.error.injEq] at herror
      obtain ⟨other, hmem, hhash, rfl⟩ := nameNext_eq_error htext herr
      have hother : other.1 ∈ named.map (·.1) := List.mem_map_of_mem hmem
      refine ⟨other.1, List.mem_append_left _ hother, k, List.mem_cons_self, ?_, ?_, ?_⟩
      · exact fun heq => (List.nodup_append.1 hnodup).2.2 _ hother _ List.mem_cons_self heq
      · rw [← hnamed other hmem, hhash, hk]
      · rw [← herror, hk]
    · rw [nameNext_of_free htext htaken] at herror
      have hnamed' : ∀ e ∈ named ++ [(k, Text.contentHash text)], e.2 = h e.1 := by
        intro e he
        rcases List.mem_append.1 he with he | he
        · exact hnamed e he
        · rw [List.mem_singleton.1 he, hk]
      have hkeys : (named ++ [(k, Text.contentHash text)]).map (·.1) ++ names =
          named.map (·.1) ++ k :: names := by simp
      obtain ⟨a, ha, b, hb, hab⟩ := ih (fun j hj => hname j (List.mem_cons_of_mem k hj)) hnamed'
        (hkeys ▸ hnodup) herror
      exact ⟨a, hkeys ▸ ha, b, List.mem_cons_of_mem k hb, hab⟩

/-- Finalizing fails only with the report of two different trees with the same hash. -/
theorem WellFormed.reportsCollision (hc : c.WellFormed) (h : c.finalize = .error e) :
    ∃ reason, e = .impossible reason ∧ c.ReportsCollision reason := by
  have hnames : c.withUnit.reduct.canonicalNames = .error e := by
    rw [hc.finalize_eq_map] at h
    cases hnames : c.withUnit.reduct.canonicalNames with
    | ok named => simp [hnames, Except.map] at h
    | error err => simpa [hnames, Except.map] using h
  have hname : ∀ k ∈ c.withUnit.reduct.keys, ∃ text, c.withUnit.reduct.encode k = .ok text ∧
      c.canonicalName k = Text.contentHash text :=
    fun k hk => hc.canonicalName_reduct (NameMap.mem_keys_iff.1 hk)
  have hnodup : (([] : List (String × String)).map (·.1) ++ c.withUnit.reduct.keys).Nodup :=
    NameMap.nodup_keys _
  obtain ⟨a, ha, b, hb, hne, hhash, rfl⟩ :=
    foldlM_nameNext_eq_error hname (by simp) hnodup hnames
  simp only [List.map_nil, List.nil_append] at ha
  rw [NameMap.mem_keys_iff, contains_reduct] at ha hb
  refine ⟨_, rfl, a, b, ha.1, hb.1, fun hbis => hne ?_, hhash, rfl⟩
  have hanchor : c.withUnit.anchor a = c.withUnit.anchor b :=
    Bisimilar.anchor_eq (by rwa [withUnit_withUnit])
  rwa [ha.2, hb.2] at hanchor

end Codes

namespace Repository
variable {repo next : Repository} {codes merged : Codes} {builtins names : NameMap String}
  {declarations : NameMap Declaration} {calls : List Call} {e : CodeError} {n reason : String}

theorem exists_of_foldlM_eq_error {α β ε : Type} {f : β → α → Except ε β} {todo : List α} {b : β}
    {e : ε} (h : todo.foldlM f b = .error e) : ∃ a ∈ todo, ∃ b, f b a = .error e := by
  induction todo generalizing b with
  | nil => cases h
  | cons a rest ih =>
    rw [List.foldlM_cons] at h
    cases hnext : f b a with
    | error err =>
      simp only [hnext, bind, Except.bind, Except.error.injEq] at h
      exact ⟨a, List.mem_cons_self, b, h ▸ hnext⟩
    | ok next =>
      rw [hnext] at h
      obtain ⟨a, ha, hstep⟩ := ih h
      exact ⟨a, List.mem_cons_of_mem _ ha, hstep⟩

section Blame

theorem merge_ne_impossible (h : repo.merge codes builtins = .error e) (reason : String) :
    e ≠ .impossible reason := by
  rintro rfl
  obtain ⟨⟨n, x⟩, -, merged, hentry⟩ := exists_of_foldlM_eq_error h
  unfold mergeEntry at hentry
  split_ifs at hentry
  · cases hentry
  · cases hx : x.traverse (repo.resolve codes builtins n) with
    | ok y => simp [hx, bind, Except.bind, pure, Except.pure] at hentry
    | error err =>
      obtain rfl : err = .impossible reason := by simpa [hx, bind, Except.bind] using hentry
      obtain ⟨r, -, hr⟩ := Code.exists_of_traverse_eq_error hx
      unfold resolve at hr
      split_ifs at hr
      split at hr
      · cases hr
      · split at hr <;> cases hr

theorem checkAll_ne_impossible (h : checkAll declarations = .error e) (reason : String) :
    e ≠ .impossible reason := by
  rintro rfl
  obtain ⟨⟨n, declaration⟩, -, checked, hentry⟩ := exists_of_foldlM_eq_error h
  unfold checkEntry at hentry
  have hcheck : declaration.check n = .error (.impossible reason) := by
    cases hcheck : declaration.check n <;> simp_all [Except.map]
  cases declaration with
  | builtin b =>
    simp only [Declaration.check] at hcheck
    split_ifs at hcheck
    cases hcheck
  | code tag product union vector =>
    simp only [Declaration.check] at hcheck
    split_ifs at hcheck <;> first | cases hcheck | (split at hcheck <;> cases hcheck)

end Blame

section AnyBatch

/-- The codes of a batch are merged under names that nothing else has. -/
theorem contains_of_merge (h : repo.merge codes builtins = .ok merged) (hn : codes.contains n) :
    merged.contains n ∧ ¬repo.codes.contains n ∧ n ≠ Text.unitName := by
  let Free (merged : Codes) : Prop :=
    merged.contains n ∧ ¬repo.codes.contains n ∧ n ≠ Text.unitName
  have hstep (entry : String × Code String) (rest : List (String × Code String))
      (merged next : Codes) (hmerged : Free merged ∨ n ∈ (entry :: rest).map (·.1))
      (hnext : repo.mergeEntry codes builtins merged entry = .ok next) :
      Free next ∨ n ∈ rest.map (·.1) := by
    obtain ⟨hnew, hunit, y, -, rfl⟩ := mergeEntry_eq_ok hnext
    simp only [Free, NameMap.contains_insert]
    rw [List.map_cons, List.mem_cons] at hmerged
    rcases hmerged with hfree | rfl | hrest
    · exact .inl ⟨.inr hfree.1, hfree.2⟩
    · exact .inl ⟨.inl rfl, hnew, hunit⟩
    · exact .inr hrest
  have hstart : Free repo.codes ∨ n ∈ codes.entries.map (·.1) :=
    .inr (NameMap.mem_keys_iff.2 hn)
  have hdone := foldlM_ok (I := fun todo merged => Free merged ∨ n ∈ todo.map (·.1))
    hstep hstart h
  exact hdone.resolve_right List.not_mem_nil

theorem exists_representative {f : Codes.Finalized} (h : merged.finalize = .ok f)
    (hn : merged.contains n) : ∃ c, f.representatives.get? n = some c := by
  simp only [Codes.finalize, Codes.minimize_eq, bind, Except.bind] at h
  split at h
  · cases h
  case h_2 partition hpartition =>
    split at hpartition
    · cases hpartition
    obtain rfl := Except.ok.inj hpartition
    split at h
    · cases h
    obtain rfl := Except.ok.inj h
    have hin : merged.withUnit.withUnit.contains n := by
      rw [Codes.withUnit_withUnit]
      exact Codes.contains_withUnit.2 (.inr hn)
    rw [NameMap.get?_map, Codes.get?_representatives_of_contains hin]
    exact ⟨_, rfl⟩

theorem get?_of_absorb {start entries : Codes} {es : List (String × Code String)}
    {changed : Option String} (h : absorb start es = (entries, changed)) (k : String)
    (x : Code String) (hx : start.get? k = some x) : entries.get? k = some x := by
  induction es generalizing start with
  | nil =>
    obtain rfl : start = entries := (Prod.mk.inj h).1
    exact hx
  | cons entry rest ih =>
    obtain ⟨n, y⟩ := entry
    rw [absorb] at h
    split at h
    case h_1 hnone =>
      apply ih h
      have hk : k ≠ n := by
        rintro rfl
        simp [hnone] at hx
      rwa [NameMap.get?_insert, if_neg hk]
    case h_2 present hpresent =>
      split_ifs at h
      · exact ih h hx
      · obtain rfl : start = entries := (Prod.mk.inj h).1
        exact hx

/-- What registering a batch can do, whatever the repository and the batch. -/
inductive Enters (repo : Repository) (codes : Codes) (builtins : NameMap String) :
    Except CodeError (NameMap String) → Repository → Prop
  | unmerged {e : CodeError} (hmerge : repo.merge codes builtins = .error e) :
      Enters repo codes builtins (.error e) repo
  | unfinalized {merged : Codes} {e : CodeError} (hmerge : repo.merge codes builtins = .ok merged)
      (hfinalize : merged.finalize = .error e) : Enters repo codes builtins (.error e) repo
  | changed {merged entries : Codes} {f : Codes.Finalized} {k : String}
      (hmerge : repo.merge codes builtins = .ok merged) (hfinalize : merged.finalize = .ok f)
      (habsorb : absorb repo.codes f.codes.entries = (entries, some k)) :
      Enters repo codes builtins (.error (.impossible s!"canonical code {k} changed its structure"))
        { repo with codes := entries }
  | entered {merged entries : Codes} {f : Codes.Finalized} {names : NameMap String}
      (hmerge : repo.merge codes builtins = .ok merged) (hfinalize : merged.finalize = .ok f)
      (habsorb : absorb repo.codes f.codes.entries = (entries, none))
      (hanswer : ∀ n, names.get? n =
        if codes.contains n then some (f.representatives.getD n n) else builtins.get? n) :
      Enters repo codes builtins (.ok names) ⟨entries, repo.aliases.union names⟩

theorem registerWith_enters (repo : Repository) (codes : Codes) (builtins : NameMap String) :
    Enters repo codes builtins (repo.registerWith codes builtins).1
      (repo.registerWith codes builtins).2 := by
  unfold registerWith
  cases hmerge : repo.merge codes builtins with
  | error e => exact .unmerged hmerge
  | ok merged =>
    cases hfinalize : merged.finalize with
    | error e =>
      simp only [hfinalize, bind, Except.bind]
      exact .unfinalized hmerge hfinalize
    | ok f =>
      simp only [hfinalize, bind, Except.bind]
      -- Every code of the batch is merged, and so it has a representative.
      have hname : ∀ n, codes.contains n →
          f.representatives.get? n = some (f.representatives.getD n n) := by
        intro n hn
        obtain ⟨c, hc⟩ := exists_representative hfinalize (contains_of_merge hmerge hn).1
        simp [NameMap.getD, hc]
      obtain ⟨names, hnames, hanswer⟩ : ∃ names, batchNames codes builtins f = .ok names ∧ _ :=
        batchNames_eq hname
      cases habsorb : absorb repo.codes f.codes.entries with
      | mk entries changed =>
        cases changed with
        | some k => exact .changed hmerge hfinalize habsorb
        | none =>
          simp only [hnames]
          exact .entered hmerge hfinalize habsorb hanswer

theorem enters_of_eq {result : Except CodeError (NameMap String)}
    (h : repo.registerWith codes builtins = (result, next)) :
    Enters repo codes builtins result next := by
  have henters := registerWith_enters repo codes builtins
  rwa [h] at henters

/-- A batch that cannot be registered leaves the repository as it was, unless it changes an
entry. Then the entries before the changed one may have been added. -/
theorem registerWith_eq_error (h : repo.registerWith codes builtins = (.error e, next)) :
    next.aliases = repo.aliases ∧
      (∀ k x, repo.codes.get? k = some x → next.codes.get? k = some x) ∧
      (next = repo ∨
        ∃ k : String, e = .impossible s!"canonical code {k} changed its structure") := by
  cases enters_of_eq h with
  | unmerged hmerge => exact ⟨rfl, fun _ _ hx => hx, .inl rfl⟩
  | unfinalized hmerge hfinalize => exact ⟨rfl, fun _ _ hx => hx, .inl rfl⟩
  | @changed _ _ _ k hmerge hfinalize habsorb => exact ⟨rfl, get?_of_absorb habsorb, .inr ⟨k, rfl⟩⟩

end AnyBatch

section Admissible

/-- Without codes under builtin names, a batch that cannot be registered leaves the repository as it
was, and the only internal error is that finalizing finds two different trees with the same hash. -/
theorem registerWith_eq_error_of_consistent (hrepo : repo.Consistent)
    (hcodes : ∀ n, codes.contains n → ¬Text.isBuiltin n)
    (hbuiltins : ∀ n b, builtins.get? n = some b → Text.isBuiltin b)
    (h : repo.registerWith codes builtins = (.error e, next)) :
    next = repo ∧ ∀ reason, e = .impossible reason → ∃ merged,
      repo.merge codes builtins = .ok merged ∧ merged.finalize = .error e ∧
        merged.ReportsCollision reason := by
  cases enters_of_eq h with
  | unmerged hmerge =>
    exact ⟨rfl, fun reason he => absurd he (merge_ne_impossible hmerge reason)⟩
  | unfinalized hmerge hfinalize =>
    have hwf := (merging_of_merge hrepo hbuiltins hmerge).wellFormed hrepo hcodes
    refine ⟨rfl, fun reason he => ⟨_, hmerge, hfinalize, ?_⟩⟩
    obtain ⟨reason', he', hreports⟩ := hwf.reportsCollision hfinalize
    obtain rfl : reason = reason' := by simpa using he.symm.trans he'
    exact hreports
  | changed hmerge hfinalize habsorb =>
    obtain ⟨names, next', hreg, -⟩ := registered_of_finalize hrepo hcodes hbuiltins hmerge hfinalize
    simp [h] at hreg

/-- A failed registration keeps all entries and aliases, and leaves the repository exactly as it was
unless it reports that an entry changed. If no code was ever declared under a builtin name, it
always does, and an internal error can only be a collision of hashes. -/
theorem eq_of_register_eq_error (calls : List Call) (declarations : NameMap Declaration)
    (h : (calls.foldl Repository.after initial).register declarations = (.error e, next)) :
    next.aliases = (calls.foldl Repository.after initial).aliases ∧
    (∀ k x, (calls.foldl Repository.after initial).codes.get? k = some x →
      next.codes.get? k = some x) ∧
    (next = calls.foldl Repository.after initial ∨
      ∃ k : String, e = .impossible s!"canonical code {k} changed its structure") ∧
    ((∀ call ∈ calls, call.Admissible) → (Call.register declarations).Admissible →
      next = calls.foldl Repository.after initial ∧
      ∀ reason, e = .impossible reason → ∃ codes builtins merged,
        checkAll declarations = .ok (codes, builtins) ∧
        (calls.foldl Repository.after initial).merge codes builtins = .ok merged ∧
        merged.finalize = .error e ∧ merged.ReportsCollision reason) := by
  generalize hrepo : calls.foldl Repository.after initial = repo at h
  unfold register at h
  cases hcheck : checkAll declarations with
  | error err =>
    simp only [hcheck, Prod.mk.injEq, Except.error.injEq] at h
    obtain ⟨rfl, rfl⟩ := h
    refine ⟨rfl, fun _ _ hx => hx, .inl rfl, fun _ _ => ⟨rfl, fun reason he => ?_⟩⟩
    exact absurd he (checkAll_ne_impossible hcheck reason)
  | ok checked =>
    obtain ⟨codes, builtins⟩ := checked
    simp only [hcheck] at h
    have hkept := registerWith_eq_error h
    refine ⟨hkept.1, hkept.2.1, hkept.2.2, fun hcalls hcall => ?_⟩
    have hconsistent : repo.Consistent := hrepo ▸ initial_consistent.foldl_after hcalls
    obtain ⟨heq, hreport⟩ := registerWith_eq_error_of_consistent hconsistent
      (hcall.not_isBuiltin hcheck) (checking_of_checkAll hcheck).builtins h
    refine ⟨heq, fun reason he => ?_⟩
    obtain ⟨merged, hmerged⟩ := hreport reason he
    exact ⟨codes, builtins, merged, rfl, hmerged⟩

/-- Two products that differ in their label only, and whose texts have the same hash. -/
def collidingProducts : Codes :=
  .ofList [("p", .product (.ofList [("Aa", "@int")])), ("q", .product (.ofList [("BB", "@int")]))]

theorem eq_of_register_eq_error_colliding :
    initial.register (collidingProducts.map .ofCode) = (.error (.impossible
      "p and q are different codes with the same hash wVGHQquRAD"), initial) ∧
    (Call.register (collidingProducts.map .ofCode)).Admissible ∧
    ∃ codes builtins merged, checkAll (collidingProducts.map .ofCode) = .ok (codes, builtins) ∧
      initial.merge codes builtins = .ok merged ∧ merged.ReportsCollision
        "p and q are different codes with the same hash wVGHQquRAD" := by
  have herror : initial.register (collidingProducts.map .ofCode) = (.error (.impossible
      "p and q are different codes with the same hash wVGHQquRAD"), initial) := by decide +kernel
  have hwf : collidingProducts.WellFormed := by decide
  have hcall := admissible_ofCode hwf.names
  obtain ⟨-, hreport⟩ := (eq_of_register_eq_error [] _ herror).2.2.2 (by simp) hcall
  obtain ⟨codes, builtins, merged, hcheck, hmerge, -, hcollision⟩ := hreport _ rfl
  exact ⟨herror, hcall, codes, builtins, merged, hcheck, hmerge, hcollision⟩

/-- A vector under the name of the integers changes the stream of integers, and so it stays in the
repository although its registration fails. -/
theorem register_error_leaves_entry :
    ([.registerCodes Codes.loopedStream].foldl Repository.after initial).register
        (.ofList [("@int", .ofCode (.vector "@bool"))]) =
      (.error (.impossible "canonical code rArHSMQzZK changed its structure"),
        ⟨streamEntries.insert "BHDqX" (.vector "@bool"),
          initial.aliases.union loopedRegistration.names⟩) ∧
    [.registerCodes Codes.loopedStream].foldl Repository.after initial ≠
      ⟨streamEntries.insert "BHDqX" (.vector "@bool"),
        initial.aliases.union loopedRegistration.names⟩ := by
  decide +kernel

end Admissible

end Repository

end StructuralTyping
