import StructuralTyping.Proofs.NameResolution
import StructuralTyping.Proofs.SettledGraph

/-!
# What names stand for

Whatever was registered, and under whatever names, an alias stands for a builtin or an entry, and
so does every name that is known at all: what a batch answers for a code is the name of an entry of
the finalized codes, and all of these are entered unless the registration fails.
-/
namespace StructuralTyping

namespace Codes
variable {c : Codes} {n k : String} {f : Finalized}

/-- Whatever the codes, they are finalized by renaming the quotient. -/
theorem exists_rename_of_finalize (h : c.finalize = .ok f) : ∃ label, f = c.rename label := by
  simp only [finalize, minimize_eq, bind, Except.bind] at h
  split at h
  · cases h
  case h_2 partition hpartition =>
    split at hpartition
    · cases hpartition
    obtain rfl := Except.ok.inj hpartition
    split at h
    · cases h
    case h_2 named hnamed =>
      exact ⟨fun r => (NameMap.lookup r named).getD r, (Except.ok.inj h).symm⟩

/-- Every name of the map is represented by an entry of the finalized codes. -/
theorem contains_of_representative (h : c.finalize = .ok f) (hn : c.withUnit.contains n)
    (hk : f.representatives.get? n = some k) : f.codes.contains k := by
  have hanchor : c.withUnit.partition.representatives.get? n = some (c.withUnit.anchor n) := by
    apply get?_representatives_of_contains
    rw [withUnit_withUnit]
    exact hn
  obtain ⟨y, hy⟩ := NameMap.contains_iff.1 (contains_anchor hn)
  obtain ⟨label, rfl⟩ := exists_rename_of_finalize h
  rw [rename, NameMap.get?_map, hanchor, Option.map_some, Option.some.injEq] at hk
  have hmem : (c.withUnit.anchor n, y) ∈ c.withUnit.reduct.entries :=
    NameMap.get?_eq_some_iff.1 hy
  rw [rename, NameMap.contains_ofList, List.map_map, List.mem_map]
  refine ⟨_, hmem, ?_⟩
  simpa only [Function.comp_apply] using hk

end Codes

namespace Repository
variable {repo next : Repository} {codes : Codes} {builtins names : NameMap String} {call : Call}
  {n k c : String}

theorem contains_of_absorb_eq {start entries : Codes} {es : List (String × Code String)}
    (h : absorb start es = (entries, none)) (hk : start.contains k ∨ k ∈ es.map (·.1)) :
    entries.contains k := by
  induction es generalizing start with
  | nil =>
    obtain rfl : start = entries := (Prod.mk.inj h).1
    exact hk.resolve_right List.not_mem_nil
  | cons entry rest ih =>
    obtain ⟨n, x⟩ := entry
    rw [List.map_cons, List.mem_cons] at hk
    rw [absorb] at h
    split at h
    case h_1 =>
      refine ih h ?_
      rw [NameMap.contains_insert]
      tauto
    case h_2 present hpresent =>
      split_ifs at h
      · refine ih h ?_
        rcases hk with hk | rfl | hk
        · exact .inl hk
        · exact .inl (NameMap.contains_of_get? hpresent)
        · exact .inr hk
      · simp at h

/-- Registering keeps all entries, also if it fails. -/
theorem get?_of_registerWith {x : Code String} (codes : Codes) (builtins : NameMap String)
    (hx : repo.codes.get? k = some x) :
    (repo.registerWith codes builtins).2.codes.get? k = some x := by
  cases hregister : repo.registerWith codes builtins with
  | mk result next =>
    cases enters_of_eq hregister with
    | unmerged hmerge => exact hx
    | unfinalized hmerge hfinalize => exact hx
    | changed hmerge hfinalize habsorb => exact get?_of_absorb habsorb k x hx
    | entered hmerge hfinalize habsorb hanswer => exact get?_of_absorb habsorb k x hx

theorem get?_of_registerWith_eq {result : Except CodeError (NameMap String)} {x : Code String}
    (h : repo.registerWith codes builtins = (result, next)) (hx : repo.codes.get? k = some x) :
    next.codes.get? k = some x := by
  have hnext := get?_of_registerWith codes builtins hx
  rwa [h] at hnext

theorem Known.registerWith (h : repo.Known c) (codes : Codes) (builtins : NameMap String) :
    (repo.registerWith codes builtins).2.Known c := by
  refine h.imp_right fun hc => ?_
  obtain ⟨x, hx⟩ := NameMap.contains_iff.1 hc
  exact NameMap.contains_of_get? (get?_of_registerWith codes builtins hx)

/-- What is answered for a batch is known once the batch is registered. -/
theorem known_of_answer (hbuiltins : ∀ n b, builtins.get? n = some b → Text.isBuiltin b)
    (h : repo.registerWith codes builtins = (.ok names, next)) (hc : names.get? n = some c) :
    next.Known c := by
  cases enters_of_eq h with
  | @entered merged entries f _ hmerge hfinalize habsorb hanswer =>
    rw [hanswer] at hc
    split_ifs at hc with hn
    · have hmerged := (contains_of_merge hmerge hn).1
      obtain ⟨k, hk⟩ := exists_representative hfinalize hmerged
      obtain rfl : k = c := by simpa [NameMap.getD, hk] using hc
      have hin := Codes.contains_of_representative hfinalize
        (Codes.contains_withUnit.2 (.inr hmerged)) hk
      exact .inr (contains_of_absorb_eq habsorb (.inr (NameMap.mem_keys_iff.2 hin)))
    · exact .inl (hbuiltins n c hc)

theorem AliasesKnown.registerWith (hrepo : repo.AliasesKnown)
    (hbuiltins : ∀ n b, builtins.get? n = some b → Text.isBuiltin b) :
    (repo.registerWith codes builtins).2.AliasesKnown := by
  intro n c hc
  cases hregister : repo.registerWith codes builtins with
  | mk result next =>
    rw [hregister] at hc
    have hkept {c : String} (h : repo.Known c) : next.Known c := by
      have hnext := h.registerWith codes builtins
      rwa [hregister] at hnext
    cases result with
    | error e =>
      rw [(registerWith_eq_error hregister).1] at hc
      exact hkept (hrepo n c hc)
    | ok names =>
      rw [(registerWith_answer hregister).1, NameMap.get?_union] at hc
      rcases Option.or_eq_some_iff.1 hc with hc | ⟨-, hc⟩
      · exact known_of_answer hbuiltins hregister hc
      · exact hkept (hrepo n c hc)

theorem AliasesKnown.after (hrepo : repo.AliasesKnown) : (repo.after call).AliasesKnown := by
  cases call with
  | register declarations =>
    rw [Repository.after, register]
    cases hcheck : checkAll declarations with
    | error e => exact hrepo
    | ok checked => exact hrepo.registerWith (checking_of_checkAll hcheck).builtins
  | registerCodes codes => exact hrepo.registerWith (by simp)
  | reset => exact initial_consistent.aliasesKnown

/-- Whatever is registered, no alias is left without meaning. -/
theorem aliasesKnown_after_calls (calls : List Call) :
    (calls.foldl Repository.after initial).AliasesKnown := by
  suffices h : ∀ repo : Repository, repo.AliasesKnown →
      (calls.foldl Repository.after repo).AliasesKnown from h _ initial_consistent.aliasesKnown
  induction calls with
  | nil => exact fun _ hrepo => hrepo
  | cons call calls ih => exact fun repo hrepo => ih _ hrepo.after

end Repository

end StructuralTyping
