import StructuralTyping.Proofs.CanonicalText
import StructuralTyping.Proofs.ExactHash

/-!
# Canonical names

The canonical name of a name is the hash of the canonical text of its tree. Finalizing succeeds
exactly if no two trees of the map have the same hash, and its result can be read off the trees
alone: each of them is entered once, under its canonical name.
-/
namespace StructuralTyping

namespace Codes
variable {c d : Codes} {a b k n : String} {f g : Finalized}

/-- The hash of the text of a name; a name without a code is its own canonical name. -/
def canonicalName (codes : Codes) (name : String) : String :=
  if codes.withUnit.contains name then
    match codes.withUnit.reduct.encode (codes.withUnit.anchor name) with
    | .ok text => Text.contentHash text
    | .error _ => name
  else name

theorem WellFormed.canonicalName_eq (h : c.WellFormed) (hn : c.withUnit.contains n) :
    ∃ text, c.withUnit.reduct.encode (c.withUnit.anchor n) = .ok text ∧
      c.canonicalName n = Text.contentHash text := by
  obtain ⟨text, htext⟩ := h.exists_text hn
  exact ⟨text, htext, by simp [canonicalName, hn, htext]⟩

theorem canonicalName_of_not_contains (h : ¬c.withUnit.contains n) : c.canonicalName n = n := by
  simp [canonicalName, h]

/-- Bisimilar names have the same canonical name. -/
theorem Bisimilar.canonicalName_eq (hc : c.WellFormed) (hd : d.WellFormed)
    (h : c.withUnit.Bisimilar d.withUnit a b) : c.canonicalName a = d.canonicalName b := by
  by_cases ha : c.withUnit.contains a
  · have hb := h.contains_iff.1 ha
    obtain ⟨s, hs, hname⟩ := hc.canonicalName_eq ha
    obtain ⟨t, ht, hname'⟩ := hd.canonicalName_eq hb
    have htext := (hc.text_eq_iff hd ha hb).2 h
    rw [hs, ht, Except.ok.injEq] at htext
    rw [hname, hname', htext]
  · obtain ⟨rfl, hnone⟩ := h.eq_of_get?_none (NameMap.get?_eq_none_iff.2 ha)
    rw [canonicalName_of_not_contains ha,
      canonicalName_of_not_contains (NameMap.get?_eq_none_iff.1 hnone)]

/-- Different trees of the map have different hashes. -/
def CollisionFree (codes : Codes) : Prop :=
  ∀ a b, codes.withUnit.contains a → codes.withUnit.contains b →
    codes.canonicalName a = codes.canonicalName b → codes.withUnit.Bisimilar codes.withUnit a b

/-- The result of finalizing, described by the trees of the map alone. -/
structure IsFinalization (codes : Codes) (f : Finalized) : Prop where
  representatives : ∀ n, f.representatives.get? n =
    if codes.withUnit.contains n then some (codes.canonicalName n) else none
  codes : ∀ k code, f.codes.get? k = some code ↔ ∃ n x, codes.withUnit.get? n = some x ∧
    codes.canonicalName n = k ∧ x.map codes.canonicalName = code

section Finalizing

section Naming
variable {normal : Codes} {named : List (String × String)} {text : String}
  (htext : normal.encode k = .ok text)
include htext

theorem nameNext_of_free (h : Text.contentHash text ∉ named.map (·.2)) :
    normal.nameNext named k = .ok (named ++ [(k, Text.contentHash text)]) := by
  have hfind : named.find? (·.2 = Text.contentHash text) = none := by
    rw [List.find?_eq_none]
    intro e he heq
    exact h (List.mem_map.2 ⟨e, he, by simpa using heq⟩)
  simp [nameNext, htext, bind, Except.bind, hfind]

theorem nameNext_of_taken (h : Text.contentHash text ∈ named.map (·.2)) :
    ∃ e, normal.nameNext named k = .error e := by
  obtain ⟨other, hother⟩ : ∃ other, named.find? (·.2 = Text.contentHash text) = some other := by
    obtain ⟨e, he, heq⟩ := List.mem_map.1 h
    exact Option.isSome_iff_exists.1 (List.find?_isSome.2 ⟨e, he, by simpa using heq⟩)
  simp [nameNext, htext, bind, Except.bind, hother]

end Naming

theorem foldlM_nameNext_eq_ok_iff {normal : Codes} {h : String → String} {names : List String}
    (hname : ∀ k ∈ names, ∃ text, normal.encode k = .ok text ∧ h k = Text.contentHash text)
    {named result : List (String × String)} (hnamed : (named.map (·.2)).Nodup) :
    names.foldlM normal.nameNext named = .ok result ↔
      result = named ++ names.map (fun k => (k, h k)) ∧
        (named.map (·.2) ++ names.map h).Nodup := by
  induction names generalizing named with
  | nil => simp [pure, Except.pure, eq_comm, hnamed]
  | cons k names ih =>
    obtain ⟨text, htext, hk⟩ := hname k List.mem_cons_self
    rw [List.foldlM_cons, List.map_cons, List.map_cons]
    by_cases htaken : h k ∈ named.map (·.2)
    · obtain ⟨e, he⟩ := nameNext_of_taken htext (hk ▸ htaken)
      have hdup : ¬(named.map (·.2) ++ h k :: names.map h).Nodup := fun hnodup =>
        (List.nodup_append.1 hnodup).2.2 _ htaken _ List.mem_cons_self rfl
      simp [he, hdup, bind, Except.bind]
    · have hnodup : ((named ++ [(k, h k)]).map (·.2)).Nodup := by
        rw [List.map_append, List.map_singleton, List.nodup_append]
        refine ⟨hnamed, List.nodup_singleton _, ?_⟩
        rintro u hu v hv rfl
        rw [List.mem_singleton.1 hv] at hu
        exact htaken hu
      have ih := ih (fun j hj => hname j (List.mem_cons_of_mem k hj)) hnodup
      rw [nameNext_of_free htext (hk ▸ htaken), ← hk]
      simpa [bind, Except.bind] using ih

theorem canonicalNames_eq_ok_iff {normal : Codes} {h : String → String}
    (hname : ∀ k, normal.contains k →
      ∃ text, normal.encode k = .ok text ∧ h k = Text.contentHash text)
    {named : List (String × String)} :
    normal.canonicalNames = .ok named ↔
      named = normal.keys.map (fun k => (k, h k)) ∧ (normal.keys.map h).Nodup := by
  have hname' : ∀ k ∈ normal.keys, ∃ text, normal.encode k = .ok text ∧
      h k = Text.contentHash text := fun k hk => hname k (NameMap.mem_keys_iff.1 hk)
  rw [canonicalNames, foldlM_nameNext_eq_ok_iff hname' (by simp)]
  simp

theorem bisimilar_withUnit_anchor (c : Codes) (n : String) :
    c.withUnit.Bisimilar c.withUnit n (c.withUnit.anchor n) := by
  have h := bisimilar_anchor c.withUnit n
  rwa [withUnit_withUnit] at h

/-- The name that a name of the quotient is given; any other name stands for itself. -/
def relabel (codes : Codes) (name : String) : String :=
  (NameMap.lookup name
    (codes.withUnit.reduct.keys.map fun k => (k, codes.canonicalName k))).getD name

theorem relabel_anchor (hc : c.WellFormed) (u : String) :
    c.relabel (c.withUnit.anchor u) = c.canonicalName u := by
  rw [relabel, NameMap.lookup_map_mk]
  split_ifs with h
  · exact ((bisimilar_withUnit_anchor c u).canonicalName_eq hc hc).symm
  · rw [NameMap.mem_keys_iff] at h
    have hout : ¬c.withUnit.contains u := fun hin => h (contains_anchor hin)
    have hself : c.withUnit.anchor u = u := anchor_of_not_contains (by rwa [withUnit_withUnit])
    rw [Option.getD_none, hself, canonicalName_of_not_contains hout]

theorem relabel_reduct (hc : c.WellFormed) {y : Code String}
    (hy : c.withUnit.reduct.get? k = some y) :
    ∃ x, c.withUnit.get? k = some x ∧ c.relabel k = c.canonicalName k ∧
      y.map c.relabel = x.map c.canonicalName := by
  obtain ⟨x, hx, rfl⟩ := Option.map_eq_some_iff.1 (get?_reduct c.withUnit k ▸ hy)
  obtain ⟨hx, hself⟩ := Option.filter_eq_some_iff.1 hx
  refine ⟨x, hx, ?_, ?_⟩
  · have hk := relabel_anchor hc k
    rwa [of_decide_eq_true hself] at hk
  · rw [Code.map_map]
    exact congrArg x.map (funext (relabel_anchor hc))

theorem nodup_names_iff (hc : c.WellFormed) :
    (c.withUnit.reduct.keys.map c.canonicalName).Nodup ↔ c.CollisionFree := by
  have hbis := bisimilar_withUnit_anchor c
  have hkeys : c.withUnit.reduct.keys.Nodup := NameMap.nodup_keys _
  rw [List.nodup_map_iff_inj_on hkeys]
  constructor
  · intro h a b ha hb hab
    rw [(hbis a).canonicalName_eq hc hc, (hbis b).canonicalName_eq hc hc] at hab
    have hanchor := h _ (NameMap.mem_keys_iff.2 (contains_anchor ha)) _
      (NameMap.mem_keys_iff.2 (contains_anchor hb)) hab
    have hb' := hbis b
    rw [← hanchor] at hb'
    exact (hbis a).trans hb'.symm
  · intro h a ha b hb hab
    rw [NameMap.mem_keys_iff, contains_reduct] at ha hb
    have hsame := h a b ha.1 hb.1 hab
    have hanchor : c.withUnit.anchor a = c.withUnit.anchor b :=
      Bisimilar.anchor_eq (by rwa [withUnit_withUnit])
    rwa [ha.2, hb.2] at hanchor

/-- The codes and representatives under given names. -/
def rename (codes : Codes) (f : String → String) : Finalized where
  codes := .ofList (codes.withUnit.reduct.entries.map fun e => (f e.1, e.2.map f))
  representatives := codes.withUnit.partition.representatives.map f

theorem WellFormed.canonicalName_reduct (hc : c.WellFormed) (hk : c.withUnit.reduct.contains k) :
    ∃ text, c.withUnit.reduct.encode k = .ok text ∧ c.canonicalName k = Text.contentHash text := by
  rw [contains_reduct] at hk
  have htext := hc.canonicalName_eq hk.1
  rwa [hk.2] at htext

theorem WellFormed.finalize_eq_map (hc : c.WellFormed) :
    c.finalize = c.withUnit.reduct.canonicalNames.map fun named =>
      c.rename fun r => (NameMap.lookup r named).getD r := by
  simp only [finalize, minimize_eq_ok hc.closed]
  rfl

theorem finalize_eq_ok_iff_rename (hc : c.WellFormed) :
    c.finalize = .ok f ↔ c.CollisionFree ∧ c.rename c.relabel = f := by
  have hname := fun k => hc.canonicalName_reduct (k := k)
  rw [hc.finalize_eq_map, ← nodup_names_iff hc]
  by_cases hfree : (c.withUnit.reduct.keys.map c.canonicalName).Nodup
  · rw [(canonicalNames_eq_ok_iff hname).2 ⟨rfl, hfree⟩, Except.map, Except.ok.injEq]
    exact (and_iff_right hfree).symm
  · cases hnames : c.withUnit.reduct.canonicalNames with
    | error e => simp [hfree, Except.map]
    | ok named => exact absurd ((canonicalNames_eq_ok_iff hname).1 hnames).2 hfree

theorem nodup_relabel (hc : c.WellFormed) (hfree : c.CollisionFree) :
    ((c.withUnit.reduct.entries.map fun e => (c.relabel e.1, e.2.map c.relabel)).map
      (·.1)).Nodup := by
  have hkeys : (c.withUnit.reduct.entries.map fun e => (c.relabel e.1, e.2.map c.relabel)).map
      (·.1) = c.withUnit.reduct.keys.map c.canonicalName := by
    rw [NameMap.keys, List.map_map, List.map_map]
    refine List.map_congr_left ?_
    rintro ⟨k, y⟩ hy
    obtain ⟨x, -, hlabel, -⟩ := relabel_reduct hc (NameMap.get?_eq_some_iff.2 hy)
    simpa only [Function.comp_apply] using hlabel
  rw [hkeys]
  exact (nodup_names_iff hc).2 hfree

theorem rename_isFinalization (hc : c.WellFormed) (hfree : c.CollisionFree) :
    c.IsFinalization (c.rename c.relabel) where
  representatives n := by
    simp only [rename, NameMap.get?_map]
    split_ifs with hn
    · rw [get?_representatives_of_contains (by rwa [withUnit_withUnit]), Option.map_some,
        relabel_anchor hc]
    · rw [get?_representatives_of_not_contains (by rwa [withUnit_withUnit]), Option.map_none]
  codes k code := by
    have hnodup := nodup_relabel hc hfree
    simp only [rename, NameMap.get?_ofList hnodup, NameMap.lookup_eq_some_iff hnodup,
      List.mem_map, Prod.exists, Prod.mk.injEq]
    constructor
    · rintro ⟨n, y, hy, rfl, rfl⟩
      obtain ⟨x, hx, hlabel, hcode⟩ := relabel_reduct hc (NameMap.get?_eq_some_iff.2 hy)
      exact ⟨n, x, hx, hlabel.symm, hcode.symm⟩
    · rintro ⟨n, x, hx, rfl, rfl⟩
      -- The entry is that of the anchor, whose code has the same trees under its labels.
      have hbis := bisimilar_withUnit_anchor c n
      obtain ⟨y, hy⟩ := NameMap.contains_iff.1 (contains_anchor (NameMap.contains_of_get? hx))
      obtain ⟨z, hz, hlabel, hcode⟩ := relabel_reduct hc hy
      obtain ⟨z', hz', hxz⟩ := hbis.exists_code hx
      obtain rfl : z = z' := Option.some.inj (hz.symm.trans hz')
      refine ⟨_, y, NameMap.get?_eq_some_iff.1 hy, ?_, ?_⟩
      · rw [hlabel, hbis.canonicalName_eq hc hc]
      · rw [hcode, eq_comm, Code.map_eq_map_iff]
        exact hxz.imp fun u _ v _ huv => huv.canonicalName_eq hc hc

theorem IsFinalization.eq (hf : c.IsFinalization f) (hg : c.IsFinalization g) : f = g := by
  obtain ⟨codes, representatives⟩ := f
  obtain ⟨codes', representatives'⟩ := g
  congr
  · ext k x
    exact (hf.codes k x).trans (hg.codes k x).symm
  · apply NameMap.ext
    intro n
    exact (hf.representatives n).trans (hg.representatives n).symm

/-- Finalizing succeeds if different trees have different hashes, and then enters each tree once,
under its canonical name. -/
theorem WellFormed.finalize_eq_ok_iff (hc : c.WellFormed) :
    c.finalize = .ok f ↔ c.CollisionFree ∧ c.IsFinalization f := by
  rw [finalize_eq_ok_iff_rename hc]
  refine and_congr_right fun hfree => ?_
  have hself := rename_isFinalization hc hfree
  exact ⟨fun h => h ▸ hself, hself.eq⟩

theorem WellFormed.exists_finalize_iff (hc : c.WellFormed) :
    (∃ f, c.finalize = .ok f) ↔ c.CollisionFree := by
  simp only [hc.finalize_eq_ok_iff]
  exact ⟨fun ⟨_, h, _⟩ => h, fun h => ⟨_, h, rename_isFinalization hc h⟩⟩

end Finalizing

end Codes

end StructuralTyping
