import Mathlib.Data.Set.Function
import StructuralTyping.Proofs.CanonicalText

/-!
# The encoding tells rooted graphs apart up to renaming

The text of a root can be read back into the codes that are led to from it, in which the names are
replaced by their places in the order. So two roots have the same text exactly if renaming what one
leads to gives what the other leads to. Nothing is asked of the two maps, which may be cyclic, may
share codes, and may give names of builtins a code.
-/
namespace StructuralTyping.Codes
open List (Forall₂)

variable {c d : Codes} {a b n : String} {o p : List String} {f : String → String}

/-- Rename a reference; builtins keep their names. -/
def renamed (f : String → String) (r : String) : String := if Text.isBuiltin r then r else f r

/-- The names that are led to from the roots correspond one to one, and so do their codes. -/
structure Renaming (c d : Codes) (a b : String) (f : String → String) : Prop where
  bijOn : Set.BijOn f {n | c.Reached a n} {n | d.Reached b n}
  root : f a = b
  code : ∀ n, c.Reached a n → d.get? (f n) = (c.get? n).map (Code.map (renamed f))

section Soundness

/-- The name at the same place of another order. -/
def counterpart (o p : List String) (n : String) : String := p.getD (o.idxOf n) n

theorem counterpart_of_getElem? (ho : o.Nodup) {i : Nat} (ha : o[i]? = some a)
    (hb : p[i]? = some b) : counterpart o p a = b := by
  obtain ⟨hlt, rfl⟩ := List.getElem?_eq_some_iff.1 ha
  rw [counterpart, List.getD_eq_getElem?_getD, ho.idxOf_getElem i hlt, hb, Option.getD_some]

theorem renamed_of_paired (ho : c.Enumerates n o) (hn : ¬Text.isBuiltin n) (h : Paired o p a b) :
    renamed (counterpart o p) a = b := by
  rcases h with ⟨hbuiltin, rfl⟩ | ⟨i, ha, hb⟩
  · rw [renamed, if_pos hbuiltin]
  · rw [renamed, if_neg (ho.not_isBuiltin hn (List.mem_of_getElem? ha)),
      counterpart_of_getElem? ho.nodup ha hb]

/-- Orders with the same text are renamed into each other place by place. -/
theorem renaming_counterpart (ha : ¬Text.isBuiltin a) (ho : c.Enumerates a o)
    (hp : d.Enumerates b p) (h : c.definitions o = d.definitions p) :
    c.Renaming d a b (counterpart o p) := by
  have hlength : o.length = p.length := by simpa [definitions] using congrArg List.length h
  have hplace : ∀ n, c.Reached a n → ∃ (i : Nat) (m : String), o[i]? = some n ∧ p[i]? = some m ∧
      counterpart o p n = m := by
    intro n hn
    obtain ⟨i, hi, rfl⟩ := List.mem_iff_getElem.1 ((ho.mem_iff n).2 hn)
    have hn' : o[i]? = some o[i] := List.getElem?_eq_getElem hi
    have hm : p[i]? = some p[i] := List.getElem?_eq_getElem (hlength ▸ hi)
    exact ⟨i, _, hn', hm, counterpart_of_getElem? ho.nodup hn' hm⟩
  refine ⟨⟨fun n hn => ?_, fun n hn n' hn' heq => ?_, fun m hm => ?_⟩, ?_, fun n hn => ?_⟩
  · obtain ⟨i, m, -, hm, heq⟩ := hplace n hn
    exact heq ▸ (hp.mem_iff m).1 (List.mem_of_getElem? hm)
  · obtain ⟨i, m, hi, hm, hfm⟩ := hplace n hn
    obtain ⟨i', m', hi', hm', hfm'⟩ := hplace n' hn'
    obtain rfl : m = m' := by rw [← hfm, ← hfm', heq]
    obtain rfl : i = i' :=
      (List.getElem?_inj (List.getElem?_eq_some_iff.1 hm).1 hp.nodup).1 (hm.trans hm'.symm)
    exact Option.some.inj (hi.symm.trans hi')
  · obtain ⟨i, hi, rfl⟩ := List.mem_iff_getElem.1 ((hp.mem_iff m).2 hm)
    have hn : o[i]? = some (o.get ⟨i, hlength ▸ hi⟩) := List.getElem?_eq_getElem _
    exact ⟨_, (ho.mem_iff _).1 (List.mem_of_getElem? hn),
      counterpart_of_getElem? ho.nodup hn (List.getElem?_eq_getElem hi)⟩
  · exact counterpart_of_getElem? ho.nodup ho.head hp.head
  · obtain ⟨i, m, hi, hm, rfl⟩ := hplace n hn
    obtain ⟨x, hx⟩ := NameMap.contains_iff.1 (ho.known n (List.mem_of_getElem? hi))
    obtain ⟨y, hy⟩ := NameMap.contains_iff.1 (hp.known _ (List.mem_of_getElem? hm))
    have halike := alike_of_definitions_eq ho hp h hi hm hx hy
    rw [hx, hy, Option.map_some, Option.some.injEq, ← Code.alike_eq_iff]
    refine (Code.alike_map_right_iff.2 (halike.flip.imp fun v _ u _ huv => ?_))
    exact (renamed_of_paired ho ha huv).symm

end Soundness

section Completeness

/-- Builtins correspond to themselves, other names to what they are renamed to. -/
def Renames (c : Codes) (a : String) (f : String → String) (u v : String) : Prop :=
  (Text.isBuiltin u ∧ u = v) ∨ (c.Reached a u ∧ f u = v)

/-- Renamed maps are explored in step. -/
theorem Renaming.inStep (h : c.Renaming d a b f) (ha : ¬Text.isBuiltin a) (hb : ¬Text.isBuiltin b) :
    c.InStep d (c.Renames a f) where
  biUnique := by
    have hout : ∀ u, c.Reached a u → ¬Text.isBuiltin (f u) := fun u hu =>
      (h.bijOn.mapsTo hu).not_isBuiltin hb
    refine ⟨fun u v w huw hvw => ?_, fun u v w huv huw => ?_⟩
    · rcases huw with ⟨hu, rfl⟩ | ⟨hu, rfl⟩ <;> rcases hvw with ⟨hv, hvw⟩ | ⟨hv, hvw⟩
      · exact hvw.symm
      · exact absurd (hvw ▸ hu) (hout v hv)
      · exact absurd (hvw ▸ hv) (hout u hu)
      · exact (h.bijOn.injOn hv hu hvw).symm
    · rcases huv with ⟨hu, rfl⟩ | ⟨hu, rfl⟩ <;> rcases huw with ⟨hu', huw⟩ | ⟨hu', huw⟩
      · exact huw
      · exact absurd hu (hu'.not_isBuiltin ha)
      · exact absurd hu' (hu.not_isBuiltin ha)
      · exact huw
  isBuiltin_eq := by
    rintro u v (⟨-, rfl⟩ | ⟨hu, rfl⟩)
    · rfl
    · rw [Bool.eq_false_iff.2 (hu.not_isBuiltin ha),
        Bool.eq_false_iff.2 ((h.bijOn.mapsTo hu).not_isBuiltin hb)]
  eq_of_isBuiltin := by
    rintro u v (⟨-, rfl⟩ | ⟨hu, -⟩) hbuiltin
    · rfl
    · exact absurd hbuiltin (hu.not_isBuiltin ha)
  code := by
    rintro u v x (⟨hbuiltin, -⟩ | ⟨hu, rfl⟩) hnot hx
    · exact absurd hbuiltin hnot
    · refine ⟨x.map (renamed f), by rw [h.code u hu, hx, Option.map_some], ?_⟩
      refine Code.alike_map_right_iff.2 ((Code.alike_eq_iff.2 rfl).imp ?_)
      rintro r hr _ - rfl
      by_cases hbuiltin : Text.isBuiltin r
      · exact .inl ⟨hbuiltin, by rw [renamed, if_pos hbuiltin]⟩
      · exact .inr ⟨hu.of_ref hx hr hbuiltin, by rw [renamed, if_neg hbuiltin]⟩

end Completeness

section Encoding

theorem encode_cases (ha : ¬Text.isBuiltin a) :
    (∃ n, c.FirstMissing a n ∧ c.encode a = .error (.unknownCode n none)) ∨
      ∃ o, c.Enumerates a o ∧ c.explore (c.size + 1) [] [a] = .ok o ∧
        c.encode a = .ok (.join (o.map (c.encodeDefinition o))) := by
  refine (c.explore_cases a).imp ?_ ?_
  · rintro ⟨n, hn, herror⟩
    refine ⟨n, hn, ?_⟩
    simp only [encode, ha, herror]
    rfl
  · rintro ⟨o, ho, hok⟩
    refine ⟨o, ho, hok, ?_⟩
    simp only [encode, ha, hok]
    rfl

theorem FirstMissing.reached (h : c.FirstMissing a n) : c.Reached a n ∧ ¬c.contains n := by
  obtain ⟨hmissing, path, hpath, -⟩ := h
  exact ⟨⟨path, hpath⟩, hmissing⟩

theorem FirstMissing.unique {m : String} (h : c.FirstMissing a m) (h' : c.FirstMissing a n) :
    m = n := by
  obtain ⟨hm, path, hpath, hfirst⟩ := h
  obtain ⟨hn, path', hpath', hfirst'⟩ := h'
  have hsame : path = path' := by
    rcases hfirst path' n hpath' hn with heq | hlt
    · exact heq
    · rcases hfirst' path m hpath hm with heq | hlt'
      · exact heq.symm
      · exact absurd (hlt.trans hlt') (Sooner.irrefl path)
  subst hsame
  exact hpath.unique hpath'

theorem encode_eq_iff (ha : ¬Text.isBuiltin a) (hb : ¬Text.isBuiltin b) (ho : c.Enumerates a o)
    (hp : d.Enumerates b p) (hok : c.explore (c.size + 1) [] [a] = .ok o)
    (hok' : d.explore (d.size + 1) [] [b] = .ok p) :
    String.join (o.map (c.encodeDefinition o)) = String.join (p.map (d.encodeDefinition p)) ↔
      ∃ f, c.Renaming d a b f := by
  rw [text_eq_iff]
  constructor
  · exact fun h => ⟨_, renaming_counterpart ha ho hp h⟩
  · rintro ⟨f, hf⟩
    have hstep := hf.inStep ha hb
    have hroot : c.Renames a f a b := .inr ⟨⟨[], .root⟩, hf.root⟩
    have hop := hstep.explore .nil (.cons hroot .nil) (by simpa using ha) hok hok'
    exact hstep.definitions_eq hop ho.known fun n hn => ho.not_isBuiltin ha hn

/-- Encoding a root fails for the first name that it leads to and that has no code, and for nothing
else. Two roots have the same text exactly if what they lead to is the same up to renaming. -/
theorem encode_up_to_renaming (c d : Codes) (ha : ¬Text.isBuiltin a) (hb : ¬Text.isBuiltin b) :
    ((∃ e, c.encode a = .error e) ↔ ∃ n, c.Reached a n ∧ ¬c.contains n) ∧
      (∀ e, c.encode a = .error e ↔ ∃ n, c.FirstMissing a n ∧ e = .unknownCode n none) ∧
      ∀ s t, c.encode a = .ok s → d.encode b = .ok t → (s = t ↔ ∃ f, c.Renaming d a b f) := by
  have hfirst : ∀ e, c.encode a = .error e ↔ ∃ n, c.FirstMissing a n ∧ e = .unknownCode n none := by
    intro e
    rcases c.encode_cases ha with ⟨n, hn, herror⟩ | ⟨o, ho, -, hok⟩
    · rw [herror, Except.error.injEq]
      constructor
      · rintro rfl
        exact ⟨n, hn, rfl⟩
      · rintro ⟨m, hm, rfl⟩
        rw [hn.unique hm]
    · rw [hok]
      refine ⟨fun h => (nomatch h), ?_⟩
      rintro ⟨n, hn, -⟩
      exact absurd (ho.known n ((ho.mem_iff n).2 hn.reached.1)) hn.reached.2
  refine ⟨⟨?_, ?_⟩, hfirst, fun s t hs ht => ?_⟩
  · rintro ⟨e, he⟩
    obtain ⟨n, hn, -⟩ := (hfirst e).1 he
    exact ⟨n, hn.reached⟩
  · rintro ⟨n, hn, hmissing⟩
    rcases c.encode_cases ha with ⟨m, -, herror⟩ | ⟨o, ho, -, -⟩
    · exact ⟨_, herror⟩
    · exact absurd (ho.known n ((ho.mem_iff n).2 hn)) hmissing
  · rcases c.encode_cases ha with ⟨n, -, herror⟩ | ⟨o, ho, hok, hs'⟩
    · cases hs.symm.trans herror
    · rcases d.encode_cases hb with ⟨n, -, herror⟩ | ⟨p, hp, hok', ht'⟩
      · cases ht.symm.trans herror
      · obtain rfl := Except.ok.inj (hs.symm.trans hs')
        obtain rfl := Except.ok.inj (ht.symm.trans ht')
        exact encode_eq_iff ha hb ho hp hok hok'

/-- The two names of a stream that is unrolled once lead to the same graph. -/
theorem encode_up_to_renaming_streams : ¬Text.isBuiltin "T" ∧ ¬Text.isBuiltin "U" ∧
    ∃ s, unrolledStream.encode "T" = .ok s ∧ unrolledStream.encode "U" = .ok s ∧
      ∃ f, unrolledStream.Renaming unrolledStream "T" "U" f := by
  have hT : ¬Text.isBuiltin "T" := by decide
  have hU : ¬Text.isBuiltin "U" := by decide
  obtain ⟨s, hs, hs'⟩ :
      ∃ s, unrolledStream.encode "T" = .ok s ∧ unrolledStream.encode "U" = .ok s :=
    ⟨_, rfl, by decide +kernel⟩
  have htext := (encode_up_to_renaming unrolledStream unrolledStream hT hU).2.2 s s hs hs'
  exact ⟨hT, hU, s, hs, hs', htext.1 rfl⟩

end Encoding

end StructuralTyping.Codes
