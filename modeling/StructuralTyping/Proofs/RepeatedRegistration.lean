import StructuralTyping.Proofs.KnownNames
import StructuralTyping.Proofs.RegistrationOrder
import StructuralTyping.Proofs.RepositoryGrowth

/-!
# Registering a batch again

A batch that was registered can be registered again, in any repository that has all entries and in
which its references mean what they meant: its trees are there already, so no two trees have the
same hash that had different ones, the canonical form of the merged codes is that of the repository,
and the names that are answered are the same.
-/
namespace StructuralTyping

theorem NameMap.union_eq_self {α : Type} {m n : NameMap α}
    (h : ∀ k x, n.get? k = some x → m.get? k = some x) : m.union n = m := by
  apply NameMap.ext
  intro k
  rw [get?_union]
  cases hk : n.get? k with
  | none => rfl
  | some x => rw [h k x hk, Option.some_or]

namespace Repository
variable {repo mid next : Repository} {codes merged merged' : Codes}
  {builtins names : NameMap String} {n k : String} {f : Codes.Finalized}

/-- What the references of a batch to other codes mean in one repository they mean in another. -/
def KeepsReferences (repo next : Repository) (codes : Codes) (builtins : NameMap String) : Prop :=
  ∀ n x, codes.get? n = some x → ∀ r ∈ x.refs, ¬codes.contains r → ¬builtins.contains r →
    repo.KeepsName next r

theorem KeepsReferences.resolve (h : repo.KeepsReferences next codes builtins) {x : Code String}
    (hx : codes.get? n = some x) {r s : String} (hr : r ∈ x.refs)
    (hs : repo.resolve codes builtins n r = .ok s) :
    next.resolve codes builtins n r = .ok s := by
  unfold Repository.resolve at hs ⊢
  split_ifs at hs ⊢ with hin
  · exact hs
  cases hb : builtins.get? r with
  | some b => rwa [hb] at hs
  | none =>
    simp only [hb] at hs ⊢
    cases hc : repo.canonical r with
    | none => simp [hc] at hs
    | some c =>
      obtain rfl : c = s := by simpa [hc] using hs
      rw [h n x hx r hr hin (NameMap.get?_eq_none_iff.1 hb) c hc]

/-- A batch that could be merged is merged again, with the same references. -/
theorem exists_merge_again (hmerge : repo.merge codes builtins = .ok merged)
    (hfree : ∀ n, codes.contains n → ¬next.codes.contains n)
    (hrefs : repo.KeepsReferences next codes builtins) :
    ∃ merged', next.merge codes builtins = .ok merged' ∧
      ∀ n, codes.contains n → merged'.get? n = merged.get? n := by
  have hresolved {n : String} {x : Code String} (hx : codes.get? n = some x) :
      ∃ y, merged.get? n = some y ∧
        x.Alike (fun r s => next.resolve codes builtins n r = .ok s) y := by
    obtain ⟨y, hy, hxy⟩ := exists_resolved hmerge hx
    exact ⟨y, hy, hxy.imp fun r hr s _ hs => hrefs.resolve hx hr hs⟩
  cases hmerge' : next.merge codes builtins with
  | error e =>
    obtain ⟨⟨n, x⟩, hentry, start, herror⟩ := exists_of_foldlM_eq_error hmerge'
    have hx : codes.get? n = some x := NameMap.get?_eq_some_iff.2 hentry
    have hn := NameMap.contains_of_get? hx
    obtain ⟨-, -, hunit⟩ := contains_of_merge hmerge hn
    obtain ⟨y, -, hxy⟩ := hresolved hx
    unfold mergeEntry at herror
    rw [if_neg (by simp [hfree n hn, hunit])] at herror
    cases hy : x.traverse (next.resolve codes builtins n) with
    | ok y => simp [hy, bind, Except.bind, pure, Except.pure] at herror
    | error err =>
      obtain ⟨r, hr, hfail⟩ := Code.exists_of_traverse_eq_error hy
      obtain ⟨s, -, hs⟩ := hxy.flip.exists_ref hr
      cases hs.symm.trans hfail
  | ok merged' =>
    refine ⟨merged', rfl, fun n hn => ?_⟩
    obtain ⟨x, hx⟩ := NameMap.contains_iff.1 hn
    obtain ⟨y, hy, hxy⟩ := hresolved hx
    obtain ⟨y', hy', hxy'⟩ := exists_resolved hmerge' hx
    have heq : y' = y := by
      rw [← Code.alike_eq_iff]
      refine (hxy'.flip.comp hxy).imp ?_
      rintro s - t - ⟨r, hs, ht⟩
      exact Except.ok.inj (hs.symm.trans ht)
    rw [hy, hy', heq]

section Present
variable (hnext : next.Consistent) (hcodes : ∀ n, codes.contains n → ¬Text.isBuiltin n)
  (hm : Merging next codes [] merged)
  (hpresent : ∀ n, codes.contains n → ∃ a, next.codes.contains a ∧
    merged.Bisimilar next.codes n a)
include hnext hcodes hm hpresent

/-- If the trees of a batch are entries, so are all trees of the merged codes. -/
theorem Merging.exists_entry (hn : merged.withUnit.contains n) :
    ∃ a, next.codes.contains a ∧ merged.withUnit.Bisimilar next.codes n a := by
  have hclosed := hm.closed hnext hcodes
  have hunit := hm.not_contains_unitName hnext
  rcases Codes.contains_withUnit.1 hn with rfl | hin
  · have hget := (hm.wellFormed hnext hcodes).get?_unitName
    exact ⟨unit, NameMap.contains_of_get? hnext.unit, Codes.bisimilar_of_get?_unit hget hnext.unit⟩
  · have hself := (hclosed.bisimilar_withUnit hunit hin).symm
    by_cases hold : next.codes.contains n
    · have hkept := hnext.canonical.closed.bisimilar_of_le hm.kept hclosed.names (.inr hold)
      exact ⟨n, hold, hself.trans hkept.symm⟩
    · obtain ⟨y, hy⟩ := NameMap.contains_iff.1 hin
      obtain ⟨a, ha, hbis⟩ := hpresent n (hm.added n y hy hold).1
      exact ⟨a, ha, hself.trans hbis⟩

/-- Then finalizing the merged codes gives the entries of the repository back, and no others. -/
theorem Merging.exists_finalize : ∃ f, merged.finalize = .ok f ∧ f.codes = next.codes := by
  have hwf := hm.wellFormed hnext hcodes
  have hname {n a : String} (ha : next.codes.contains a)
      (hbis : merged.withUnit.Bisimilar next.codes n a) : merged.canonicalName n = a :=
    hnext.canonical.canonicalName_eq hwf ha hbis
  have hfree : merged.CollisionFree := by
    intro n m hn hm' hnm
    obtain ⟨a, ha, hna⟩ := hm.exists_entry hnext hcodes hpresent hn
    obtain ⟨b, hb, hmb⟩ := hm.exists_entry hnext hcodes hpresent hm'
    obtain rfl : a = b := by rw [← hname ha hna, ← hname hb hmb, hnm]
    exact hna.trans hmb.symm
  obtain ⟨f, hok⟩ := hwf.exists_finalize_iff.2 hfree
  obtain ⟨-, hf⟩ := hwf.finalize_eq_ok_iff.1 hok
  refine ⟨f, hok, ?_⟩
  have hkept {k : String} {x : Code String} (hx : next.codes.get? k = some x) :
      f.codes.get? k = some x := hm.get?_finalized hnext hcodes hf hx
  ext k x
  refine ⟨fun hx => ?_, hkept⟩
  obtain ⟨n, hn, rfl⟩ := hf.contains_iff.1 (NameMap.contains_of_get? hx)
  obtain ⟨a, ha, hna⟩ := hm.exists_entry hnext hcodes hpresent hn
  rw [hname ha hna] at hx ⊢
  obtain ⟨y, hy⟩ := NameMap.contains_iff.1 ha
  rw [hy, ← hkept hy, hx]

end Present

section Again
variable (hrepo : repo.Consistent) (hnext : next.Consistent)
  (hcodes : ∀ n, codes.contains n → ¬Text.isBuiltin n)
  (hreg : Registered repo codes builtins merged names mid)
  (hm' : Merging next codes [] merged')
  (hsame : ∀ n, codes.contains n → merged'.get? n = merged.get? n)
  (hkept : ∀ k x, mid.codes.get? k = some x → next.codes.get? k = some x)
include hrepo hnext hcodes hreg hm' hsame hkept

/-- The codes of a batch that is merged with the same references have the same trees. -/
theorem Registered.bisimilar_again (hn : codes.contains n) : merged.Bisimilar merged' n n := by
  have hm := hreg.merging
  have hle (k : String) (x : Code String) (hx : merged.get? k = some x) :
      merged'.get? k = some x := by
    by_cases hk : codes.contains k
    · rwa [hsame k hk]
    · have hold : repo.codes.contains k := by
        by_contra hnot
        exact hk (hm.added k x hx hnot).1
      obtain ⟨y, hy⟩ := NameMap.contains_iff.1 hold
      obtain rfl : x = y := Option.some.inj (hx.symm.trans (hm.kept k y hy))
      exact hm'.kept k x (hkept k x (hreg.kept hrepo hcodes k x hy))
  exact (hm.closed hrepo hcodes).bisimilar_of_le hle (hm'.closed hnext hcodes).names
    (.inr (hm.contains hn))

theorem Registered.exists_entry_again (hbuiltins : ∀ n b, builtins.get? n = some b →
    Text.isBuiltin b) (hn : codes.contains n) :
    ∃ a, next.codes.contains a ∧ merged'.Bisimilar next.codes n a := by
  have hmid := hreg.consistent hrepo hcodes hbuiltins
  obtain ⟨a, -, ha, hna⟩ := hreg.exists_name hrepo hcodes hn
  have hstep := hmid.canonical.closed.bisimilar_of_le hkept hnext.canonical.closed.names (.inr ha)
  have hbis := hreg.bisimilar_again hrepo hnext hcodes hm' hsame hkept hn
  exact ⟨a, hstep.contains_iff.1 ha, hbis.symm.trans (hna.trans hstep)⟩

/-- Hence the same names are answered. -/
theorem Registered.names_eq {names' : NameMap String} {next' : Repository}
    (hreg' : Registered next codes builtins merged' names' next') : names' = names := by
  have hm := hreg.merging
  apply NameMap.ext
  intro n
  rw [hreg'.answer, hreg.answer]
  split_ifs with hn
  · have hself := (hm.closed hrepo hcodes).bisimilar_withUnit (hm.not_contains_unitName hrepo)
      (hm.contains hn)
    have hself' := (hm'.closed hnext hcodes).bisimilar_withUnit (hm'.not_contains_unitName hnext)
      (hm'.contains hn)
    have hbis := hreg.bisimilar_again hrepo hnext hcodes hm' hsame hkept hn
    exact congrArg some (((hself.symm.trans hbis).trans hself').canonicalName_eq
      (hm.wellFormed hrepo hcodes) (hm'.wellFormed hnext hcodes)).symm
  · rfl

end Again

/-- A batch that was registered is registered again in any repository that has all entries: the same
names are answered, and there are no new entries. -/
theorem registerWith_again (hrepo : repo.Consistent) (hnext : next.Consistent)
    (hcodes : ∀ n, codes.contains n → ¬Text.isBuiltin n)
    (hbuiltins : ∀ n b, builtins.get? n = some b → Text.isBuiltin b)
    (h : repo.registerWith codes builtins = (.ok names, mid))
    (hkept : ∀ k x, mid.codes.get? k = some x → next.codes.get? k = some x)
    (hfree : ∀ n, codes.contains n → ¬next.codes.contains n)
    (hrefs : repo.KeepsReferences next codes builtins) :
    next.registerWith codes builtins = (.ok names, ⟨next.codes, next.aliases.union names⟩) := by
  rcases registerWith_cases hrepo hcodes hbuiltins with
    ⟨e, he⟩ | ⟨merged, names', mid', hmerge, hok, hreg⟩
  · cases h.symm.trans he
  obtain ⟨heq, rfl⟩ := Prod.mk.inj (h.symm.trans hok)
  obtain rfl := Except.ok.inj heq
  obtain ⟨merged', hmerge', hsame⟩ := exists_merge_again hmerge hfree hrefs
  have hm' := merging_of_merge hnext hbuiltins hmerge'
  obtain ⟨f, hf, hentries⟩ := hm'.exists_finalize hnext hcodes fun n hn =>
    hreg.exists_entry_again hrepo hnext hcodes hm' hsame hkept hbuiltins hn
  obtain ⟨names', next', hok', hreg'⟩ := registered_of_finalize hnext hcodes hbuiltins hmerge' hf
  have hnames := hreg.names_eq hrepo hnext hcodes hm' hsame hkept hreg'
  obtain ⟨g, hg, hnextCodes⟩ := hreg'.finalization
  have hfg : f = g := ((hm'.wellFormed hnext hcodes).finalize_eq_ok_iff.1 hf).2.eq hg
  rw [hok', ← hnames, ← hentries, hfg, ← hnextCodes, ← hreg'.aliases]

end Repository

end StructuralTyping
