import Mathlib.Data.List.Perm.Basic
import StructuralTyping.Proofs.RegistrationHistory

/-!
# Order and batching of registrations

A batch that refers to nothing but itself, builtins and the empty product means the same in every
repository, so the names that are answered for it depend on nothing else. After such batches the
entries of a repository are the trees of the batches and the empty product, and a canonical form is
determined by its trees. Hence neither the order of the batches nor whether they are registered one
by one or together makes a difference.
-/
namespace StructuralTyping

namespace NameMap
variable {α : Type} {key : String} {value : α}

def Apart (m n : NameMap α) : Prop := ∀ key, m.contains key → ¬n.contains key

instance (m n : NameMap α) : Decidable (m.Apart n) :=
  decidable_of_iff (∀ key ∈ m.keys, ¬n.contains key) (by simp only [mem_keys_iff, Apart])

/-- All entries of some maps. -/
def unionAll (maps : List (NameMap α)) : NameMap α := maps.foldl union ∅

theorem get?_foldl_union {maps : List (NameMap α)} {m : NameMap α}
    (h : (m :: maps).Pairwise Apart) : (maps.foldl union m).get? key = some value ↔
      m.get? key = some value ∨ ∃ n ∈ maps, n.get? key = some value := by
  induction maps generalizing m with
  | nil => simp
  | cons n maps ih =>
    obtain ⟨hm, hn, hrest⟩ : (∀ p ∈ n :: maps, m.Apart p) ∧ (∀ p ∈ maps, n.Apart p) ∧
        maps.Pairwise Apart := by
      rw [List.pairwise_cons, List.pairwise_cons] at h
      exact ⟨h.1, h.2⟩
    have hcontains (k : String) : (m.union n).contains k → m.contains k ∨ n.contains k := by
      intro hk
      obtain ⟨x, hx⟩ := contains_iff.1 hk
      rw [get?_union, Option.or_eq_some_iff] at hx
      rcases hx with hx | ⟨-, hx⟩
      · exact .inr (contains_of_get? hx)
      · exact .inl (contains_of_get? hx)
    have hnext : ((m.union n) :: maps).Pairwise Apart := by
      refine List.pairwise_cons.2 ⟨fun p hp k hk => ?_, hrest⟩
      rcases hcontains k hk with hk | hk
      · exact hm p (List.mem_cons_of_mem n hp) k hk
      · exact hn p hp k hk
    have hboth : (m.union n).get? key = some value ↔
        m.get? key = some value ∨ n.get? key = some value := by
      rw [get?_union, Option.or_eq_some_iff, or_comm]
      refine or_congr_left (and_iff_right_of_imp fun hx => ?_)
      exact get?_eq_none_iff.2 (hm n List.mem_cons_self key (contains_of_get? hx))
    rw [List.foldl_cons, ih hnext, hboth, or_assoc]
    simp

theorem get?_unionAll {maps : List (NameMap α)} (h : maps.Pairwise Apart) :
    (unionAll maps).get? key = some value ↔ ∃ m ∈ maps, m.get? key = some value := by
  have hempty : ((∅ : NameMap α) :: maps).Pairwise Apart := by
    refine List.pairwise_cons.2 ⟨fun m _ k hk => ?_, h⟩
    simp [contains] at hk
  rw [unionAll, get?_foldl_union hempty]
  simp

theorem contains_unionAll {maps : List (NameMap α)} (h : maps.Pairwise Apart) :
    (unionAll maps).contains key ↔ ∃ m ∈ maps, m.contains key := by
  simp only [contains_iff, get?_unionAll h]
  tauto

end NameMap

namespace Codes
variable {c d : Codes} {a b k n : String}

/-- A batch with no builtin name that refers to its own names, to builtins and to the empty product
only. -/
structure SelfContained (codes : Codes) : Prop where
  names : ∀ n, codes.contains n → ¬Text.isBuiltin n
  refs : ∀ n code, codes.get? n = some code → ∀ r ∈ code.refs, codes.isKnown r

theorem SelfContained.wellFormed (h : c.SelfContained) (hunit : ¬c.contains Text.unitName) :
    c.WellFormed where
  unit _ hx := absurd (NameMap.contains_of_get? hx) hunit
  names := h.names
  refs := h.refs

/-- In canonical forms a tree has the same name. -/
theorem Canonical.eq_of_bisimilar (hc : c.Canonical) (hd : d.Canonical)
    (h : c.Bisimilar d a b) : a = b := by
  by_cases ha : c.contains a
  · have hself := hc.canonicalName_eq hc.wellFormed ha (hc.bisimilar_withUnit ha).symm
    have hother := hd.canonicalName_eq hc.wellFormed (h.contains_iff.1 ha)
      ((hc.bisimilar_withUnit ha).symm.trans h)
    exact hself.symm.trans hother
  · exact (h.eq_of_get?_none (NameMap.get?_eq_none_iff.2 ha)).1

/-- Canonical forms with the same trees are equal. -/
theorem Canonical.eq (hc : c.Canonical) (hd : d.Canonical)
    (hforth : ∀ k, c.contains k → ∃ l, c.Bisimilar d k l)
    (hback : ∀ k, d.contains k → ∃ l, d.Bisimilar c k l) : c = d := by
  have hget {c d : Codes} (hc : c.Canonical) (hd : d.Canonical)
      (hforth : ∀ k, c.contains k → ∃ l, c.Bisimilar d k l) {k : String} {x : Code String}
      (hx : c.get? k = some x) : d.get? k = some x := by
    obtain ⟨l, hl⟩ := hforth k (NameMap.contains_of_get? hx)
    obtain rfl := hc.eq_of_bisimilar hd hl
    obtain ⟨y, hy, hxy⟩ := hl.exists_code hx
    rw [hy, Option.some.injEq, eq_comm, ← Code.alike_eq_iff]
    exact hxy.imp fun u _ v _ huv => hc.eq_of_bisimilar hd huv
  apply NameMap.ext
  intro k
  ext x
  exact ⟨hget hc hd hforth, hget hd hc hback⟩

end Codes

namespace Repository
variable {repo next : Repository} {codes merged : Codes} {builtins names : NameMap String}
  {n r s : String}

section Batch

/-- What holds while the references of a batch are resolved and some codes are still to be done. -/
structure Resolving (repo : Repository) (codes : Codes) (builtins : NameMap String)
    (todo : List (String × Code String)) (merged : Codes) : Prop where
  pending : ∀ e ∈ todo, codes.get? e.1 = some e.2
  resolved : ∀ n x, codes.get? n = some x → (n, x) ∈ todo ∨
    ∃ y, merged.get? n = some y ∧ x.traverse (repo.resolve codes builtins n) = .ok y

theorem Resolving.step {e : String × Code String} {todo : List (String × Code String)}
    {result : Codes} (h : Resolving repo codes builtins (e :: todo) merged)
    (hresult : repo.mergeEntry codes builtins merged e = .ok result) :
    Resolving repo codes builtins todo result := by
  obtain ⟨m, x⟩ := e
  obtain ⟨-, -, y, hy, rfl⟩ := mergeEntry_eq_ok hresult
  refine ⟨fun e he => h.pending e (List.mem_cons_of_mem _ he), fun n z hz => ?_⟩
  by_cases hnm : n = m
  · subst hnm
    obtain rfl : x = z := Option.some.inj ((h.pending _ List.mem_cons_self).symm.trans hz)
    exact .inr ⟨y, by simp [NameMap.get?_insert], hy⟩
  · rcases h.resolved n z hz with hin | ⟨w, hw, htraverse⟩
    · refine .inl ((List.mem_cons.1 hin).resolve_left fun heq => hnm (congrArg Prod.fst heq))
    · exact .inr ⟨w, by rwa [NameMap.get?_insert, if_neg hnm], htraverse⟩

/-- A merged code is the code of the batch with its references resolved. -/
theorem exists_resolved (hmerge : repo.merge codes builtins = .ok merged) {x : Code String}
    (hx : codes.get? n = some x) :
    ∃ y, merged.get? n = some y ∧
      x.Alike (fun r s => repo.resolve codes builtins n r = .ok s) y := by
  have hstart : Resolving repo codes builtins codes.entries repo.codes :=
    ⟨fun e he => NameMap.get?_eq_some_iff.2 he, fun n x hx => .inl (NameMap.get?_eq_some_iff.1 hx)⟩
  have hend := foldlM_ok (fun _ _ _ _ => Resolving.step) hstart hmerge
  obtain ⟨y, hy, htraverse⟩ := (hend.resolved n x hx).resolve_left List.not_mem_nil
  exact ⟨y, hy, Code.alike_of_traverse htraverse⟩

variable (hrepo : repo.Consistent) (halias : repo.aliases.get? Text.unitName = some unit)
  (hself : codes.SelfContained) (hmerge : repo.merge codes ∅ = .ok merged)
include hrepo hmerge

theorem not_contains_unitName_of_merge : ¬codes.contains Text.unitName := by
  have hm := merging_of_merge hrepo (by simp) hmerge
  exact fun hin => hm.not_contains_unitName hrepo (hm.contains hin)

omit hmerge
include halias

theorem resolve_of_isKnown (hr : codes.isKnown r) (h : repo.resolve codes ∅ n r = .ok s) :
    s = r ∧ (Text.isBuiltin r ∨ codes.contains r) ∨ r = Text.unitName ∧ s = unit := by
  simp only [Codes.isKnown, Bool.or_eq_true, beq_iff_eq] at hr
  by_cases hin : codes.contains r
  · simp only [resolve, hin, if_true, Except.ok.injEq] at h
    exact .inl ⟨h.symm, .inr hin⟩
  · simp only [resolve, hin, NameMap.get?_empty, canonical] at h
    by_cases hbuiltin : Text.isBuiltin r
    · simp only [hbuiltin, Bool.true_or, if_true, Bool.false_eq_true, if_false,
        Except.ok.injEq] at h
      exact .inl ⟨h.symm, .inl hbuiltin⟩
    · obtain rfl : r = Text.unitName := by tauto
      have hfree := hrepo.canonical.not_contains_unitName
      simp only [hbuiltin, hfree, halias, Bool.or_self, Bool.false_eq_true, if_false,
        Except.ok.injEq] at h
      exact .inr ⟨rfl, h.symm⟩

include hself hmerge

/-- Merging leaves the trees of a self-contained batch as they are. -/
theorem bisimilar_merged (hn : codes.contains n) : codes.withUnit.Bisimilar merged n n := by
  have hm := merging_of_merge hrepo (by simp) hmerge
  have hwf := hself.wellFormed (not_contains_unitName_of_merge hrepo hmerge)
  have hclosed := hm.closed hrepo hself.names
  refine ⟨fun a b => b = a ∧ (Text.isBuiltin a ∨ codes.contains a) ∨
    a = Text.unitName ∧ b = unit, ?_, .inl ⟨rfl, .inr hn⟩⟩
  rintro a b (⟨rfl, ha⟩ | ⟨rfl, rfl⟩)
  · by_cases hbuiltin : Text.isBuiltin b
    · exact .of_none (NameMap.get?_eq_none_iff.2 fun hin => hwf.closed.names b hin hbuiltin)
        (NameMap.get?_eq_none_iff.2 fun hin => hclosed.names b hin hbuiltin)
    · obtain ⟨x, hx⟩ := NameMap.contains_iff.1 (ha.resolve_left hbuiltin)
      obtain ⟨y, hy, hxy⟩ := exists_resolved hmerge hx
      have hb : b ≠ Text.unitName := by
        rintro rfl
        exact not_contains_unitName_of_merge hrepo hmerge (NameMap.contains_of_get? hx)
      refine .of_some (by rwa [Codes.get?_withUnit codes hb]) hy (hxy.imp fun u hu v _ huv => ?_)
      exact resolve_of_isKnown hrepo halias (hself.refs b x hx u hu) huv
  · refine .of_some hwf.get?_unitName (hm.kept _ _ hrepo.unit) (Code.alike_iff.2 ⟨rfl, ?_⟩)
    exact .nil

/-- The names of a self-contained batch do not depend on the repository. -/
theorem canonicalName_merged (hn : codes.contains n) :
    merged.canonicalName n = codes.canonicalName n := by
  have hm := merging_of_merge hrepo (by simp) hmerge
  have hwf := hself.wellFormed (not_contains_unitName_of_merge hrepo hmerge)
  have hclosed := hm.closed hrepo hself.names
  have hbis := (bisimilar_merged hrepo halias hself hmerge hn).trans
    (hclosed.bisimilar_withUnit (hm.not_contains_unitName hrepo) (hm.contains hn))
  exact (hbis.canonicalName_eq hwf (hm.wellFormed hrepo hself.names)).symm

end Batch

section Run

/-- Batches registered one after the other, each with the names that were answered. -/
inductive RegistersAll : Repository → List (Codes × NameMap String) → Repository → Prop
  | nil {repo : Repository} : RegistersAll repo [] repo
  | cons {repo next last : Repository} {codes : Codes} {names : NameMap String}
      {rest : List (Codes × NameMap String)} (hok : repo.registerCodes codes = (.ok names, next))
      (hrest : RegistersAll next rest last) : RegistersAll repo ((codes, names) :: rest) last

/-- The entries are the trees of the batches and the empty product. -/
structure Holds (repo : Repository) (batches : List Codes) : Prop where
  consistent : repo.Consistent
  unitAlias : repo.aliases.get? Text.unitName = some unit
  present : ∀ b ∈ batches, ∀ n, b.contains n → ∃ k, b.withUnit.Bisimilar repo.codes n k
  origin : ∀ k, repo.codes.contains k → k = unit ∨
    ∃ b ∈ batches, ∃ n, b.contains n ∧ b.withUnit.Bisimilar repo.codes n k

/-- The names that any repository answers for a self-contained batch. -/
structure AnswerOf (codes : Codes) (names : NameMap String) : Prop where
  reserved : ¬codes.contains Text.unitName
  get? : ∀ n, names.get? n = if codes.contains n then some (codes.canonicalName n) else none

variable {batches : List Codes}

theorem holds_initial : initial.Holds [] where
  consistent := initial_consistent
  unitAlias := by decide +kernel
  present b hb := by simp at hb
  origin k hk := .inl (eq_unit_of_contains_initial hk)

section Registered
variable (h : repo.Holds batches) (hself : codes.SelfContained)
  (hmerge : repo.merge codes ∅ = .ok merged) (hreg : repo.Registered codes ∅ merged names next)
include h hself hreg

theorem Holds.consistent_registered : next.Consistent :=
  hreg.consistent h.consistent hself.names (by simp)

/-- Old entries keep their trees. -/
theorem Holds.bisimilar_registered {k : String} (hk : repo.codes.contains k) :
    repo.codes.Bisimilar next.codes k k :=
  h.consistent.canonical.closed.bisimilar_of_le (hreg.kept h.consistent hself.names)
    (h.consistent_registered hself hreg).canonical.closed.names (.inr hk)

include hmerge

theorem Holds.present_registered : ∀ b ∈ codes :: batches, ∀ n, b.contains n →
    ∃ k, b.withUnit.Bisimilar next.codes n k := by
  have hrepo := h.consistent
  intro b hb n hn
  rcases List.mem_cons.1 hb with rfl | hb
  · obtain ⟨k, -, -, hk⟩ := hreg.exists_name hrepo hself.names hn
    exact ⟨k, (bisimilar_merged hrepo h.unitAlias hself hmerge hn).trans hk⟩
  · obtain ⟨k, hk⟩ := h.present b hb n hn
    have hin := hk.contains_iff.1 (Codes.contains_withUnit.2 (.inr hn))
    exact ⟨k, hk.trans (h.bisimilar_registered hself hreg hin)⟩

/-- A new entry has the tree of the merged entry that it is named for, which is one of the batch or
was there before. -/
theorem Holds.origin_registered : ∀ k, next.codes.contains k → k = unit ∨
    ∃ b ∈ codes :: batches, ∃ n, b.contains n ∧ b.withUnit.Bisimilar next.codes n k := by
  intro k hk
  have hrepo := h.consistent
  have hnext := h.consistent_registered hself hreg
  have hm := hreg.merging
  obtain ⟨f, hf, hcodes⟩ := hreg.finalization
  rw [hcodes] at hk
  obtain ⟨n, hn, rfl⟩ := hf.contains_iff.1 hk
  have hbis := hf.bisimilar (hm.wellFormed hrepo hself.names) (.inr hn)
  rw [← hcodes] at hk hbis
  rcases Codes.contains_withUnit.1 hn with rfl | hn
  · -- The name of the empty product: no other entry has its tree.
    have hmerged := (hm.wellFormed hrepo hself.names).get?_unitName
    have hbisUnit := hbis.symm.trans (Codes.bisimilar_of_get?_unit hmerged hnext.unit)
    exact .inl (hnext.canonical.reduced _ _ hk (NameMap.contains_of_get? hnext.unit) hbisUnit)
  · by_cases hold : repo.codes.contains n
    · rw [hm.canonicalName_entry hrepo hself.names hold]
      refine (h.origin n hold).imp id ?_
      rintro ⟨b, hb, m, hbm, hmn⟩
      exact ⟨b, List.mem_cons_of_mem _ hb, m, hbm,
        hmn.trans (h.bisimilar_registered hself hreg hold)⟩
    · obtain ⟨y, hy⟩ := NameMap.contains_iff.1 hn
      have hin := (hm.added n y hy hold).1
      refine .inr ⟨codes, List.mem_cons_self, n, hin, ?_⟩
      exact ((bisimilar_merged hrepo h.unitAlias hself hmerge hin).trans
        ((hm.closed hrepo hself.names).bisimilar_withUnit (hm.not_contains_unitName hrepo)
          hn)).trans hbis

theorem Holds.answer_registered : AnswerOf codes names where
  reserved := not_contains_unitName_of_merge h.consistent hmerge
  get? n := by
    rw [hreg.answer]
    split_ifs with hn
    · rw [canonicalName_merged h.consistent h.unitAlias hself hmerge hn]
    · simp

end Registered

theorem Holds.registerCodes (h : repo.Holds batches) (hself : codes.SelfContained)
    (hok : repo.registerCodes codes = (.ok names, next)) :
    next.Holds (codes :: batches) ∧ AnswerOf codes names := by
  have hnone : ∀ n b, (∅ : NameMap String).get? n = some b → Text.isBuiltin b := by simp
  rcases registerWith_cases h.consistent hself.names hnone with
    ⟨e, he⟩ | ⟨merged, names', next', hmerge, hok', hreg⟩
  · rw [Repository.registerCodes, he] at hok
    cases hok
  rw [Repository.registerCodes, hok', Prod.mk.injEq, Except.ok.injEq] at hok
  obtain ⟨rfl, rfl⟩ := hok
  have hanswer := h.answer_registered hself hmerge hreg
  refine ⟨⟨h.consistent_registered hself hreg, ?_, h.present_registered hself hmerge hreg,
    h.origin_registered hself hmerge hreg⟩, hanswer⟩
  rw [hreg.aliases, NameMap.get?_union, hanswer.get?, if_neg hanswer.reserved, Option.none_or]
  exact h.unitAlias

theorem Holds.registersAll {run : List (Codes × NameMap String)} {last : Repository}
    (h : repo.Holds batches) (hrun : RegistersAll repo run last)
    (hself : ∀ e ∈ run, e.1.SelfContained) :
    (∃ all, last.Holds all ∧ ∀ b, b ∈ all ↔ b ∈ batches ∨ b ∈ run.map (·.1)) ∧
      ∀ e ∈ run, AnswerOf e.1 e.2 := by
  induction hrun generalizing batches with
  | nil => exact ⟨⟨batches, h, by simp⟩, by simp⟩
  | @cons repo next last codes names rest hok hrest ih =>
    obtain ⟨hnext, hanswer⟩ := h.registerCodes (hself _ List.mem_cons_self) hok
    obtain ⟨⟨all, hall, hmem⟩, hanswers⟩ := ih hnext fun e he => hself e (List.mem_cons_of_mem _ he)
    refine ⟨⟨all, hall, fun b => ?_⟩, List.forall_mem_cons.2 ⟨hanswer, hanswers⟩⟩
    rw [hmem, List.map_cons, List.mem_cons, List.mem_cons]
    tauto

/-- Repositories that hold the same batches have the same entries. -/
theorem Holds.codes_eq {repo' : Repository} {batches' : List Codes} (h : repo.Holds batches)
    (h' : repo'.Holds batches') (hsame : ∀ b, b ∈ batches ↔ b ∈ batches') :
    repo.codes = repo'.codes := by
  have hforth {repo repo' : Repository} {batches batches' : List Codes} (h : repo.Holds batches)
      (h' : repo'.Holds batches') (hsub : ∀ b ∈ batches, b ∈ batches') (k : String)
      (hk : repo.codes.contains k) : ∃ l, repo.codes.Bisimilar repo'.codes k l := by
    rcases h.origin k hk with rfl | ⟨b, hb, n, hn, hnk⟩
    · exact ⟨unit, Codes.bisimilar_of_get?_unit h.consistent.unit h'.consistent.unit⟩
    · obtain ⟨l, hl⟩ := h'.present b (hsub b hb) n hn
      exact ⟨l, hnk.symm.trans hl⟩
  exact h.consistent.canonical.eq h'.consistent.canonical
    (hforth h h' fun b hb => (hsame b).1 hb) (hforth h' h fun b hb => (hsame b).2 hb)

end Run

section Union
variable {batches : List Codes} (hapart : batches.Pairwise NameMap.Apart)
  (hself : ∀ b ∈ batches, b.SelfContained)
include hapart hself

theorem selfContained_unionAll : Codes.SelfContained (NameMap.unionAll batches) where
  names n hn := by
    obtain ⟨b, hb, hbn⟩ := (NameMap.contains_unionAll hapart).1 hn
    exact (hself b hb).names n hbn
  refs n x hx r hr := by
    obtain ⟨b, hb, hbn⟩ := (NameMap.get?_unionAll hapart).1 hx
    have hknown := (hself b hb).refs n x hbn r hr
    simp only [Codes.isKnown, Bool.or_eq_true] at hknown ⊢
    exact hknown.imp id fun hin => (NameMap.contains_unionAll hapart).2 ⟨b, hb, hin⟩

/-- A batch keeps its trees when others are put beside it. -/
theorem bisimilar_unionAll (hunit : ∀ b ∈ batches, ¬b.contains Text.unitName) {b : Codes}
    (hb : b ∈ batches) (hn : b.contains n) :
    b.withUnit.Bisimilar (Codes.withUnit (NameMap.unionAll batches)) n n := by
  have hunit' : ¬(NameMap.unionAll batches).contains Text.unitName := by
    intro hin
    obtain ⟨c, hc, hin⟩ := (NameMap.contains_unionAll hapart).1 hin
    exact hunit c hc hin
  have hwf := (hself b hb).wellFormed (hunit b hb)
  have hwf' := (selfContained_unionAll hapart hself).wellFormed hunit'
  refine hwf.closed.bisimilar_of_le (fun k x hx => ?_) hwf'.closed.names
    (.inr (Codes.contains_withUnit.2 (.inr hn)))
  by_cases hk : k = Text.unitName
  · subst hk
    rw [hwf'.get?_unitName, ← hx, hwf.get?_unitName]
  · rw [Codes.get?_withUnit _ hk] at hx ⊢
    exact (NameMap.get?_unionAll hapart).2 ⟨b, hb, hx⟩

theorem Holds.of_unionAll (hunit : ∀ b ∈ batches, ¬b.contains Text.unitName)
    (h : repo.Holds [NameMap.unionAll batches]) : repo.Holds batches where
  consistent := h.consistent
  unitAlias := h.unitAlias
  present b hb n hn := by
    have hin := (NameMap.contains_unionAll hapart).2 ⟨b, hb, hn⟩
    obtain ⟨k, hk⟩ := h.present _ List.mem_cons_self n hin
    exact ⟨k, (bisimilar_unionAll hapart hself hunit hb hn).trans hk⟩
  origin k hk := by
    refine (h.origin k hk).imp id ?_
    rintro ⟨c, hc, n, hn, hnk⟩
    obtain rfl := List.mem_singleton.1 hc
    obtain ⟨b, hb, hbn⟩ := (NameMap.contains_unionAll hapart).1 hn
    exact ⟨b, hb, n, hbn, (bisimilar_unionAll hapart hself hunit hb hbn).trans hnk⟩

end Union

variable {run run' : List (Codes × NameMap String)} {repo' : Repository}

theorem AnswerOf.contains_iff (h : AnswerOf codes names) : names.contains n ↔ codes.contains n := by
  rw [NameMap.contains, h.get?]
  split_ifs with hn <;> simp [hn]

theorem apart_answers (hanswers : ∀ e ∈ run, AnswerOf e.1 e.2)
    (hapart : (run.map (·.1)).Pairwise NameMap.Apart) :
    (run.map (·.2)).Pairwise NameMap.Apart := by
  rw [List.pairwise_map] at hapart ⊢
  refine hapart.imp_of_mem fun {d e} hd he hde n hn hn' => ?_
  exact hde n ((hanswers d hd).contains_iff.1 hn) ((hanswers e he).contains_iff.1 hn')

/-- The names of batches registered together are those of the batches registered one by one. -/
theorem AnswerOf.unionAll (hself : ∀ e ∈ run, e.1.SelfContained)
    (hanswers : ∀ e ∈ run, AnswerOf e.1 e.2) (hapart : (run.map (·.1)).Pairwise NameMap.Apart)
    (h : AnswerOf (NameMap.unionAll (run.map (·.1))) names) :
    names = NameMap.unionAll (run.map (·.2)) := by
  have hself' : ∀ b ∈ run.map (·.1), Codes.SelfContained b := List.forall_mem_map.2 hself
  have hunit : ∀ b ∈ run.map (·.1), ¬NameMap.contains b Text.unitName :=
    List.forall_mem_map.2 fun e he => (hanswers e he).reserved
  apply NameMap.ext
  intro n
  ext a
  rw [h.get?, NameMap.get?_unionAll (apart_answers hanswers hapart)]
  constructor
  · intro ha
    split_ifs at ha with hn
    obtain ⟨b, hb, hbn⟩ := (NameMap.contains_unionAll hapart).1 hn
    obtain ⟨e, he, rfl⟩ := List.mem_map.1 hb
    refine ⟨e.2, List.mem_map_of_mem he, ?_⟩
    have hbis := bisimilar_unionAll hapart hself' hunit hb hbn
    rw [(hanswers e he).get?, if_pos hbn, ← ha, hbis.canonicalName_eq
      ((hself e he).wellFormed (hunit _ hb))
      ((selfContained_unionAll hapart hself').wellFormed h.reserved)]
  · rintro ⟨m, hm, ha⟩
    obtain ⟨e, he, rfl⟩ := List.mem_map.1 hm
    have hb : e.1 ∈ run.map (·.1) := List.mem_map_of_mem he
    rw [(hanswers e he).get?] at ha
    split_ifs at ha with hbn
    have hbis := bisimilar_unionAll hapart hself' hunit hb hbn
    rw [if_pos ((NameMap.contains_unionAll hapart).2 ⟨_, hb, hbn⟩), ← ha, hbis.canonicalName_eq
      ((hself e he).wellFormed (hunit _ hb))
      ((selfContained_unionAll hapart hself').wellFormed h.reserved)]

/-- Self-contained batches that are registered in two orders leave the same entries and are answered
the same names, and so are batches with no name in common that are registered together. -/
theorem registration_order_irrelevant (h : RegistersAll initial run repo)
    (h' : RegistersAll initial run' repo') (hperm : (run.map (·.1)).Perm (run'.map (·.1)))
    (hself : ∀ e ∈ run, e.1.SelfContained) :
    repo.codes = repo'.codes ∧
    (∀ codes names names', (codes, names) ∈ run → (codes, names') ∈ run' → names = names') ∧
    ((run.map (·.1)).Pairwise NameMap.Apart → ∀ names all,
      initial.registerCodes (NameMap.unionAll (run.map (·.1))) = (.ok names, all) →
      all.codes = repo.codes ∧ names = NameMap.unionAll (run.map (·.2))) := by
  have hself' : ∀ e ∈ run', e.1.SelfContained := by
    intro e he
    obtain ⟨d, hd, hde⟩ := List.mem_map.1 (hperm.mem_iff.2 (List.mem_map_of_mem he))
    exact hde ▸ hself d hd
  obtain ⟨⟨all, hall, hmem⟩, hanswers⟩ := holds_initial.registersAll h hself
  obtain ⟨⟨all', hall', hmem'⟩, hanswers'⟩ := holds_initial.registersAll h' hself'
  refine ⟨?_, ?_, ?_⟩
  · refine hall.codes_eq hall' fun b => ?_
    rw [hmem, hmem', hperm.mem_iff]
  · intro codes names names' hin hin'
    apply NameMap.ext
    intro n
    rw [(hanswers _ hin).get?, (hanswers' _ hin').get?]
  · intro hapart names together hok
    have hbatches : ∀ b ∈ run.map (·.1), Codes.SelfContained b := List.forall_mem_map.2 hself
    have hunit : ∀ b ∈ run.map (·.1), ¬NameMap.contains b Text.unitName :=
      List.forall_mem_map.2 fun e he => (hanswers e he).reserved
    obtain ⟨hholds, hanswer⟩ :=
      holds_initial.registerCodes (selfContained_unionAll hapart hbatches) hok
    refine ⟨?_, hanswer.unionAll hself hanswers hapart⟩
    exact (hholds.of_unionAll hapart hbatches hunit).codes_eq hall fun b => by simp [hmem]

/-- A stream with a tag, which refers to the empty product. -/
def taggedStream : Codes :=
  .ofList [("P", .product (.ofList [("items", "Q"), ("tag", Text.unitName)])),
    ("Q", .product (.ofList [("head", "@int"), ("tail", "Q")]))]

def taggedNames : NameMap String := .ofList [("P", "VBSrZvzJAJ"), ("Q", "rArHSMQzZK")]

/-- The entries once the stream is registered with and without the tag. -/
def taggedEntries : Codes :=
  streamEntries.insert "VBSrZvzJAJ"
    (.product (.ofList [("items", "rArHSMQzZK"), ("tag", unit)]))

def loopedFirst : List (Codes × NameMap String) :=
  [(Codes.loopedStream, loopedRegistration.names), (taggedStream, taggedNames)]

def taggedFirst : List (Codes × NameMap String) :=
  [(taggedStream, taggedNames), (Codes.loopedStream, loopedRegistration.names)]

theorem registersAll_loopedFirst : RegistersAll initial loopedFirst
    ⟨taggedEntries, (initial.aliases.union loopedRegistration.names).union taggedNames⟩ := by
  have hsecond : registerCodes ⟨streamEntries, initial.aliases.union loopedRegistration.names⟩
      taggedStream = (.ok taggedNames,
        ⟨taggedEntries, (initial.aliases.union loopedRegistration.names).union taggedNames⟩) := by
    decide +kernel
  exact .cons (by decide +kernel) (.cons hsecond .nil)

theorem registersAll_taggedFirst : RegistersAll initial taggedFirst
    ⟨taggedEntries, (initial.aliases.union taggedNames).union loopedRegistration.names⟩ := by
  have hsecond : registerCodes ⟨taggedEntries, initial.aliases.union taggedNames⟩
      Codes.loopedStream = (.ok loopedRegistration.names,
        ⟨taggedEntries, (initial.aliases.union taggedNames).union loopedRegistration.names⟩) := by
    decide +kernel
  exact .cons (by decide +kernel) (.cons hsecond .nil)

theorem selfContained_loopedFirst : ∀ e ∈ loopedFirst, e.1.SelfContained := by
  have hlooped : Codes.loopedStream.WellFormed := by decide
  have htagged : taggedStream.WellFormed := by decide
  simp only [loopedFirst, List.forall_mem_cons]
  exact ⟨⟨hlooped.names, hlooped.refs⟩, ⟨htagged.names, htagged.refs⟩, by simp⟩

theorem registerCodes_together :
    initial.registerCodes (NameMap.unionAll (loopedFirst.map (·.1))) =
      (.ok (NameMap.unionAll (loopedFirst.map (·.2))),
        ⟨taggedEntries, initial.aliases.union (NameMap.unionAll (loopedFirst.map (·.2)))⟩) := by
  decide +kernel

theorem registration_order_irrelevant_streams :
    RegistersAll initial loopedFirst
      ⟨taggedEntries, (initial.aliases.union loopedRegistration.names).union taggedNames⟩ ∧
    RegistersAll initial taggedFirst
      ⟨taggedEntries, (initial.aliases.union taggedNames).union loopedRegistration.names⟩ ∧
    (loopedFirst.map (·.1)).Perm (taggedFirst.map (·.1)) ∧
    (∀ e ∈ loopedFirst, e.1.SelfContained) ∧
    (∀ codes names names', (codes, names) ∈ loopedFirst → (codes, names') ∈ taggedFirst →
      names = names') ∧
    (loopedFirst.map (·.1)).Pairwise NameMap.Apart ∧
    ∃ names all, initial.registerCodes (NameMap.unionAll (loopedFirst.map (·.1))) =
      (.ok names, all) ∧ all.codes = taggedEntries ∧
        names = NameMap.unionAll (loopedFirst.map (·.2)) := by
  have hperm : (loopedFirst.map (·.1)).Perm (taggedFirst.map (·.1)) := .swap _ _ []
  have hapart : (loopedFirst.map (·.1)).Pairwise NameMap.Apart := by decide
  obtain ⟨-, hnames, htogether⟩ := registration_order_irrelevant registersAll_loopedFirst
    registersAll_taggedFirst hperm selfContained_loopedFirst
  exact ⟨registersAll_loopedFirst, registersAll_taggedFirst, hperm, selfContained_loopedFirst,
    hnames, hapart, _, _, registerCodes_together, htogether hapart _ _ registerCodes_together⟩

end Repository

end StructuralTyping
