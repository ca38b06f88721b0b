import StructuralTyping.Proofs.CanonicalName

/-!
# Canonical form

A map is in canonical form if it is closed and reduced and has every code under the hash of its own
text. Finalizing puts a map into canonical form, which depends on nothing but the trees that the
names of the map unfold to: maps with the same trees have the same canonical form, however their
names are chosen, duplicated or unrolled, and a map in canonical form keeps its names.
-/
namespace StructuralTyping.Codes
variable {c d : Codes} {a b k n : String} {f g : Finalized}

structure Canonical (codes : Codes) : Prop where
  closed : codes.Closed
  reduced : codes.Reduced
  named : ∀ k, codes.contains k → ∃ text, codes.encode k = .ok text ∧ Text.contentHash text = k

/-- Each map has all trees of the other, the empty product included. -/
structure SameTrees (c d : Codes) : Prop where
  forth : ∀ a, c.withUnit.contains a → ∃ b, c.withUnit.Bisimilar d.withUnit a b
  back : ∀ b, d.withUnit.contains b → ∃ a, c.withUnit.Bisimilar d.withUnit a b

theorem SameTrees.refl (c : Codes) : c.SameTrees c where
  forth a _ := ⟨a, .refl _ a⟩
  back a _ := ⟨a, .refl _ a⟩

theorem SameTrees.symm (h : c.SameTrees d) : d.SameTrees c where
  forth b hb := (h.back b hb).imp fun _ => Bisimilar.symm
  back a ha := (h.forth a ha).imp fun _ => Bisimilar.symm

section Trees

/-- In a larger map the names of a closed map keep their trees. -/
theorem Closed.bisimilar_of_le (hc : c.Closed) (hle : ∀ k x, c.get? k = some x → d.get? k = some x)
    (hd : ∀ k, d.contains k → ¬Text.isBuiltin k) (hn : Text.isBuiltin n ∨ c.contains n) :
    c.Bisimilar d n n := by
  refine ⟨fun a b => a = b ∧ (Text.isBuiltin a ∨ c.contains a), ?_, rfl, hn⟩
  rintro a b ⟨rfl, ha⟩
  by_cases hbuiltin : Text.isBuiltin a
  · exact .of_none (NameMap.get?_eq_none_iff.2 fun hin => hc.names a hin hbuiltin)
      (NameMap.get?_eq_none_iff.2 fun hin => hd a hin hbuiltin)
  · obtain ⟨x, hx⟩ := NameMap.contains_iff.1 (ha.resolve_left hbuiltin)
    refine .of_some hx (hle a x hx) ((Code.alike_eq_iff.2 rfl).imp fun u hu v _ huv => ?_)
    exact ⟨huv, hc.refs a x hx u hu⟩

theorem bisimilar_of_get?_unit (ha : c.get? a = some .unit) (hb : d.get? b = some .unit) :
    c.Bisimilar d a b := by
  refine .of_matches (.of_some ha hb (Code.alike_iff.2 ⟨rfl, ?_⟩))
  exact .nil

variable (hc : c.Closed) (hunit : ¬c.contains Text.unitName)
include hc hunit

theorem Closed.wellFormed : c.WellFormed where
  unit x hx := absurd (NameMap.contains_of_get? hx) hunit
  names := hc.names
  refs n x hx r hr := by
    rcases hc.refs n x hx r hr with hr' | hr' <;> simp [isKnown, hr']

theorem Closed.bisimilar_withUnit (hn : c.contains n) : c.Bisimilar c.withUnit n n := by
  refine hc.bisimilar_of_le (fun k x hx => ?_) (hc.wellFormed hunit).closed.names (.inr hn)
  have hk : k ≠ Text.unitName := by
    rintro rfl
    exact hunit (NameMap.contains_of_get? hx)
  rwa [get?_withUnit c hk]

end Trees

section Canonical

theorem Canonical.not_contains_unitName (h : c.Canonical) : ¬c.contains Text.unitName := by
  intro hin
  obtain ⟨text, -, htext⟩ := h.named _ hin
  exact Text.contentHash_ne_unitName text htext

theorem Canonical.wellFormed (h : c.Canonical) : c.WellFormed :=
  h.closed.wellFormed h.not_contains_unitName

theorem Canonical.bisimilar_withUnit (h : c.Canonical) (hn : c.contains n) :
    c.Bisimilar c.withUnit n n :=
  h.closed.bisimilar_withUnit h.not_contains_unitName hn

/-- A tree that a map in canonical form has under some name has that name as canonical name. -/
theorem Canonical.canonicalName_eq (hd : d.Canonical) (hc : c.WellFormed) (hk : d.contains k)
    (h : c.withUnit.Bisimilar d n k) : c.canonicalName n = k := by
  have hn := h.contains_iff.2 hk
  obtain ⟨text, htext, hname⟩ := hc.canonicalName_eq hn
  obtain ⟨text', htext', rfl⟩ := hd.named k hk
  have hreduct := (bisimilar_reduct (contains_withUnit_unitName c) n).symm.trans h
  have hsame := hreduct.encode_eq hc.reduct_closed hd.closed (withUnit_reduct_reduced c) hd.reduced
    (contains_anchor hn)
  rw [htext, htext', Except.ok.injEq] at hsame
  rw [hname, hsame]

end Canonical

section Finalization
variable (hc : c.WellFormed) (hf : c.IsFinalization f)

include hf in
theorem IsFinalization.contains_iff :
    f.codes.contains k ↔ ∃ n, c.withUnit.contains n ∧ c.canonicalName n = k := by
  simp only [NameMap.contains_iff, hf.codes]
  constructor
  · rintro ⟨-, n, x, hx, hk, -⟩
    exact ⟨n, ⟨x, hx⟩, hk⟩
  · rintro ⟨n, ⟨x, hx⟩, hk⟩
    exact ⟨_, n, x, hx, hk, rfl⟩

include hc hf

theorem IsFinalization.exists_text (hk : f.codes.contains k) : ∃ n text, c.withUnit.contains n ∧
    c.withUnit.reduct.encode (c.withUnit.anchor n) = .ok text ∧ c.canonicalName n = k ∧
      Text.contentHash text = k := by
  obtain ⟨n, hn, rfl⟩ := hf.contains_iff.1 hk
  obtain ⟨text, htext, hname⟩ := hc.canonicalName_eq hn
  exact ⟨n, text, hn, htext, rfl, hname.symm⟩

theorem IsFinalization.not_isBuiltin (hk : f.codes.contains k) : ¬Text.isBuiltin k := by
  obtain ⟨-, text, -, -, -, rfl⟩ := hf.exists_text hc hk
  exact Text.contentHash_not_isBuiltin text

/-- Finalizing moves every tree to its canonical name. -/
theorem IsFinalization.bisimilar (hn : Text.isBuiltin n ∨ c.withUnit.contains n) :
    c.withUnit.Bisimilar f.codes n (c.canonicalName n) := by
  refine ⟨fun a b => (Text.isBuiltin a ∨ c.withUnit.contains a) ∧ b = c.canonicalName a, ?_,
    hn, rfl⟩
  rintro a b ⟨ha, rfl⟩
  by_cases hbuiltin : Text.isBuiltin a
  · have hout : ¬c.withUnit.contains a := fun hin => hc.closed.names a hin hbuiltin
    rw [canonicalName_of_not_contains hout]
    exact .of_none (NameMap.get?_eq_none_iff.2 hout)
      (NameMap.get?_eq_none_iff.2 fun hin => hf.not_isBuiltin hc hin hbuiltin)
  · obtain ⟨x, hx⟩ := NameMap.contains_iff.1 (ha.resolve_left hbuiltin)
    refine .of_some hx ((hf.codes _ _).2 ⟨a, x, hx, rfl, rfl⟩) (Code.alike_map_right_iff.2 ?_)
    refine (Code.alike_eq_iff.2 rfl).imp fun u hu v _ huv => ?_
    exact ⟨hc.closed.refs a x hx u hu, congrArg _ huv.symm⟩

theorem IsFinalization.closed : f.codes.Closed where
  names k hk := hf.not_isBuiltin hc hk
  refs k y hy r hr := by
    obtain ⟨n, x, hx, -, rfl⟩ := (hf.codes k y).1 hy
    rw [Code.refs_map, List.mem_map] at hr
    obtain ⟨u, hu, rfl⟩ := hr
    rcases hc.closed.refs n x hx u hu with h | h
    · have hout : ¬c.withUnit.contains u := fun hin => hc.closed.names u hin h
      rw [canonicalName_of_not_contains hout]
      exact .inl h
    · exact .inr (hf.contains_iff.2 ⟨u, h, rfl⟩)

theorem IsFinalization.reduced : f.codes.Reduced := by
  intro k l hk hl hkl
  obtain ⟨n, hn, rfl⟩ := hf.contains_iff.1 hk
  obtain ⟨m, hm, rfl⟩ := hf.contains_iff.1 hl
  have hn' := hf.bisimilar hc (.inr hn)
  have hm' := hf.bisimilar hc (.inr hm)
  exact ((hn'.trans hkl).trans hm'.symm).canonicalName_eq hc hc

/-- Finalizing puts a map into canonical form. -/
theorem IsFinalization.canonical : f.codes.Canonical where
  closed := hf.closed hc
  reduced := hf.reduced hc
  named k hk := by
    obtain ⟨n, text, hn, htext, rfl, hname⟩ := hf.exists_text hc hk
    have hreduct := (bisimilar_reduct (contains_withUnit_unitName c) n).symm.trans
      (hf.bisimilar hc (.inr hn))
    have hsame := hreduct.encode_eq hc.reduct_closed (hf.closed hc) (withUnit_reduct_reduced c)
      (hf.reduced hc) (contains_anchor hn)
    exact ⟨text, hsame ▸ htext, hname⟩

theorem IsFinalization.sameTrees : c.SameTrees f.codes where
  forth n hn := by
    have hk : f.codes.contains (c.canonicalName n) := hf.contains_iff.2 ⟨n, hn, rfl⟩
    exact ⟨_, (hf.bisimilar hc (.inr hn)).trans ((hf.canonical hc).bisimilar_withUnit hk)⟩
  back k hk := by
    rcases contains_withUnit.1 hk with rfl | hk
    · exact ⟨_, bisimilar_of_get?_unit hc.get?_unitName (hf.canonical hc).wellFormed.get?_unitName⟩
    · obtain ⟨n, hn, rfl⟩ := hf.contains_iff.1 hk
      exact ⟨n, (hf.bisimilar hc (.inr hn)).trans ((hf.canonical hc).bisimilar_withUnit hk)⟩

end Finalization

section SameTrees
variable (hc : c.WellFormed) (hd : d.WellFormed) (h : c.SameTrees d)
include hc hd h

theorem SameTrees.collisionFree (hfree : c.CollisionFree) : d.CollisionFree := by
  intro a b ha hb hab
  obtain ⟨n, hn⟩ := h.back a ha
  obtain ⟨m, hm⟩ := h.back b hb
  rw [← hn.canonicalName_eq hc hd, ← hm.canonicalName_eq hc hd] at hab
  have hnm := hfree n m (hn.contains_iff.2 ha) (hm.contains_iff.2 hb) hab
  exact (hn.symm.trans hnm).trans hm

theorem SameTrees.get?_of_get? (hf : c.IsFinalization f) (hg : d.IsFinalization g)
    {x : Code String} (hx : f.codes.get? k = some x) : g.codes.get? k = some x := by
  obtain ⟨n, y, hy, rfl, rfl⟩ := (hf.codes k x).1 hx
  obtain ⟨m, hm⟩ := h.forth n (NameMap.contains_of_get? hy)
  obtain ⟨z, hz, hyz⟩ := hm.exists_code hy
  refine (hg.codes _ _).2 ⟨m, z, hz, (hm.canonicalName_eq hc hd).symm, ?_⟩
  rw [eq_comm, Code.map_eq_map_iff]
  exact hyz.imp fun u _ v _ huv => huv.canonicalName_eq hc hd

theorem SameTrees.finalized_codes_eq (hf : c.IsFinalization f) (hg : d.IsFinalization g) :
    f.codes = g.codes := by
  ext k x
  exact ⟨h.get?_of_get? hc hd hf hg, h.symm.get?_of_get? hd hc hg hf⟩

end SameTrees

/-- The representatives are there, and tell the trees of the two maps apart. -/
def Distinguishes (c d : Codes) (f g : Finalized) : Prop :=
  ∀ n m, c.withUnit.contains n → d.withUnit.contains m →
    ∃ a b, f.representatives.get? n = some a ∧ g.representatives.get? m = some b ∧
      (a = b ↔ c.withUnit.Bisimilar d.withUnit n m)

theorem IsFinalization.distinguishes (hc : c.WellFormed) (hd : d.WellFormed) (h : c.SameTrees d)
    (hfree : c.CollisionFree) (hf : c.IsFinalization f) (hg : d.IsFinalization g) :
    Distinguishes c d f g := by
  intro n m hn hm
  refine ⟨_, _, by rw [hf.representatives, if_pos hn], by rw [hg.representatives, if_pos hm], ?_⟩
  refine ⟨fun hnm => ?_, fun hnm => hnm.canonicalName_eq hc hd⟩
  obtain ⟨n', hn'⟩ := h.back m hm
  rw [← hn'.canonicalName_eq hc hd] at hnm
  exact (hfree n n' hn (hn'.contains_iff.2 hm) hnm).trans hn'

/-- A map that is already in canonical form is left alone. -/
theorem IsFinalization.finalize_codes (hc : c.WellFormed) (hfree : c.CollisionFree)
    (hf : c.IsFinalization f) : ∃ g, f.codes.finalize = .ok g ∧ g.codes = f.codes ∧
      ∀ k, f.codes.contains k → g.representatives.get? k = some k := by
  have hcan := hf.canonical hc
  have hsame := hf.sameTrees hc
  have hfree' := hsame.collisionFree hc hcan.wellFormed hfree
  obtain ⟨g, hok⟩ := hcan.wellFormed.exists_finalize_iff.2 hfree'
  obtain ⟨-, hg⟩ := hcan.wellFormed.finalize_eq_ok_iff.1 hok
  refine ⟨g, hok, (hsame.finalized_codes_eq hc hcan.wellFormed hf hg).symm, fun k hk => ?_⟩
  have hself := hcan.canonicalName_eq hcan.wellFormed hk (hcan.bisimilar_withUnit hk).symm
  rw [hg.representatives, if_pos (contains_withUnit.2 (.inr hk)), hself]

/-- Maps with the same trees have the same canonical form, in which each tree has a name of its own.
A map in canonical form keeps its names. -/
theorem finalize_eq_of_sameTrees (hc : c.WellFormed) (hd : d.WellFormed) (h : c.SameTrees d) :
    ((∃ f, c.finalize = .ok f) ↔ ∃ g, d.finalize = .ok g) ∧
    (∀ f g, c.finalize = .ok f → d.finalize = .ok g → f.codes = g.codes ∧
      Distinguishes c d f g ∧ Distinguishes c c f f ∧ Distinguishes d d g g) ∧
    ∀ f, c.finalize = .ok f → ∃ g, f.codes.finalize = .ok g ∧ g.codes = f.codes ∧
      ∀ k, f.codes.contains k → g.representatives.get? k = some k := by
  refine ⟨?_, ?_, ?_⟩
  · rw [hc.exists_finalize_iff, hd.exists_finalize_iff]
    exact ⟨h.collisionFree hc hd, h.symm.collisionFree hd hc⟩
  · intro f g hf hg
    obtain ⟨hfree, hf⟩ := hc.finalize_eq_ok_iff.1 hf
    obtain ⟨hfree', hg⟩ := hd.finalize_eq_ok_iff.1 hg
    exact ⟨h.finalized_codes_eq hc hd hf hg, hf.distinguishes hc hd h hfree hg,
      hf.distinguishes hc hc (.refl c) hfree hf, hg.distinguishes hd hd (.refl d) hfree' hg⟩
  · intro f hf
    obtain ⟨hfree, hf⟩ := hc.finalize_eq_ok_iff.1 hf
    exact hf.finalize_codes hc hfree

example : loopedStream.finalize.toOption.map (·.codes.keys) = some ["DBO", "rArHSMQzZK"] := by
  decide +kernel

theorem SameTrees.of_pairs (pairs : List (String × String))
    (h : ∀ p ∈ pairs, c.withUnit.Matches d.withUnit (fun a b => (a, b) ∈ pairs) p.1 p.2)
    (hforth : ∀ a ∈ c.withUnit.keys, ∃ p ∈ pairs, p.1 = a)
    (hback : ∀ b ∈ d.withUnit.keys, ∃ p ∈ pairs, p.2 = b) : c.SameTrees d where
  forth a ha := by
    obtain ⟨p, hp, rfl⟩ := hforth a (NameMap.mem_keys_iff.2 ha)
    exact ⟨p.2, .of_pairs h hp⟩
  back b hb := by
    obtain ⟨p, hp, rfl⟩ := hback b (NameMap.mem_keys_iff.2 hb)
    exact ⟨p.1, .of_pairs h hp⟩

theorem sameTrees_streams : loopedStream.SameTrees unrolledStream :=
  .of_pairs [("S", "T"), ("S", "U"), ("@int", "@int"), (Text.unitName, Text.unitName)]
    (by decide) (by decide) (by decide)

theorem finalize_eq_of_sameTrees_streams :
    loopedStream.WellFormed ∧ unrolledStream.WellFormed ∧ loopedStream.SameTrees unrolledStream ∧
    ((∃ f, loopedStream.finalize = .ok f) ↔ ∃ g, unrolledStream.finalize = .ok g) ∧
    (∀ f g, loopedStream.finalize = .ok f → unrolledStream.finalize = .ok g → f.codes = g.codes ∧
      Distinguishes loopedStream unrolledStream f g ∧ Distinguishes loopedStream loopedStream f f ∧
      Distinguishes unrolledStream unrolledStream g g) ∧
    ∀ f, loopedStream.finalize = .ok f → ∃ g, f.codes.finalize = .ok g ∧ g.codes = f.codes ∧
      ∀ k, f.codes.contains k → g.representatives.get? k = some k :=
  ⟨by decide, by decide, sameTrees_streams,
    finalize_eq_of_sameTrees (by decide) (by decide) sameTrees_streams⟩

end StructuralTyping.Codes
