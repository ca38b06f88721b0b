import StructuralTyping.Proofs.AnchoredRefinement
import StructuralTyping.Proofs.Exploration

/-!
# The canonical text of a tree

The text of a name determines the tree that the name unfolds to, and in reduced maps the tree
determines the text. Since every map can be reduced, comparing the texts of the anchors decides
whether two names, of any two maps, unfold to the same tree.
-/
namespace StructuralTyping.Codes
open List (Forall₂)

variable {c d : Codes} {a b m n : String} {o p : List String}

theorem Closed.contains_of_leads (hc : c.Closed) (ha : c.contains a) {path : List Nat}
    (h : c.Leads a path n) : c.contains n := by
  induction h with
  | root => exact ha
  | step _ hx hi hr ih => exact (hc.refs _ _ hx _ (List.mem_of_getElem? hi)).resolve_left hr

theorem encode_eq_ok (hc : c.Closed) (ha : c.contains a) :
    ∃ order, c.explore (c.size + 1) [] [a] = .ok order ∧ c.Enumerates a order ∧
      c.encode a = .ok (.join (order.map (c.encodeDefinition order))) := by
  rcases c.explore_cases a with ⟨n, ⟨hmissing, path, hpath, -⟩, -⟩ | ⟨order, horder, hok⟩
  · exact absurd (hc.contains_of_leads ha hpath) hmissing
  · refine ⟨order, hok, horder, ?_⟩
    simp only [encode, hc.names a ha, hok]
    rfl

/-- Equal builtins, and names at the same place of two orders. -/
def Paired (o p : List String) (a b : String) : Prop :=
  (Text.isBuiltin a ∧ a = b) ∨ ∃ i : Nat, o[i]? = some a ∧ p[i]? = some b

theorem paired_of_mark_eq (ha : Text.isBuiltin a ∨ a ∈ o) (hb : Text.isBuiltin b ∨ b ∈ p)
    (h : mark o a = mark p b) : Paired o p a b := by
  unfold mark at h
  by_cases hba : Text.isBuiltin a <;> by_cases hbb : Text.isBuiltin b <;> simp [hba, hbb] at h
  · exact .inl ⟨hba, h⟩
  · have hao := ha.resolve_left hba
    have hbp := hb.resolve_left hbb
    refine .inr ⟨o.idxOf a, ?_, ?_⟩
    · rw [List.getElem?_eq_getElem (List.idxOf_lt_length_of_mem hao), List.getElem_idxOf]
    · rw [h, List.getElem?_eq_getElem (List.idxOf_lt_length_of_mem hbp), List.getElem_idxOf]

theorem alike_of_definitions_eq {x y : Code String} {i : Nat} (ho : c.Enumerates n o)
    (hp : d.Enumerates m p) (h : c.definitions o = d.definitions p) (ha : o[i]? = some a)
    (hb : p[i]? = some b) (hx : c.get? a = some x) (hy : d.get? b = some y) :
    x.Alike (Paired o p) y := by
  have hcodes : x.map (mark o) = y.map (mark p) := by
    have hi := congrArg (·[i]?) h
    simp only [definitions, List.getElem?_map, ha, hb, Option.map_some, Option.some.injEq,
      Prod.mk.injEq, NameMap.getD, hx, hy, Option.getD_some] at hi
    exact hi.2
  refine (Code.map_eq_map_iff.1 hcodes).imp fun u hu v hv huv => ?_
  exact paired_of_mark_eq (ho.refs (List.mem_of_getElem? ha) hx hu)
    (hp.refs (List.mem_of_getElem? hb) hy hv) huv

/-- Names at the same place of two orders with the same text are bisimilar. -/
theorem paired_isBisimulation (hc : c.Closed) (hd : d.Closed) (ho : c.Enumerates n o)
    (hp : d.Enumerates m p) (h : c.definitions o = d.definitions p) :
    c.IsBisimulation d (Paired o p) := by
  intro a b hab
  rcases hab with ⟨hbuiltin, rfl⟩ | ⟨i, ha, hb⟩
  · exact .of_none (NameMap.get?_eq_none_iff.2 fun hin => hc.names a hin hbuiltin)
      (NameMap.get?_eq_none_iff.2 fun hin => hd.names a hin hbuiltin)
  · obtain ⟨x, hx⟩ := NameMap.contains_iff.1 (ho.known a (List.mem_of_getElem? ha))
    obtain ⟨y, hy⟩ := NameMap.contains_iff.1 (hp.known b (List.mem_of_getElem? hb))
    exact .of_some hx hy (alike_of_definitions_eq ho hp h ha hb hx hy)

theorem bisimilar_of_encode_eq (hc : c.Closed) (hd : d.Closed) (ha : c.contains a)
    (hb : d.contains b) (h : c.encode a = d.encode b) : c.Bisimilar d a b := by
  obtain ⟨o, -, ho, hoe⟩ := encode_eq_ok hc ha
  obtain ⟨p, -, hp, hpe⟩ := encode_eq_ok hd hb
  rw [hoe, hpe, Except.ok.injEq, text_eq_iff] at h
  exact ⟨Paired o p, paired_isBisimulation hc hd ho hp h, .inr ⟨0, ho.head, hp.head⟩⟩

theorem Bisimilar.encode_eq (hc : c.Closed) (hd : d.Closed) (hrc : c.Reduced) (hrd : d.Reduced)
    (ha : c.contains a) (h : c.Bisimilar d a b) : c.encode a = d.encode b := by
  obtain ⟨o, hok, ho, hoe⟩ := encode_eq_ok hc ha
  obtain ⟨p, hok', -, hpe⟩ := encode_eq_ok hd (h.contains_iff.1 ha)
  have hstep := hrc.inStep hrd hc hd
  have hop := hstep.explore .nil (.cons h .nil) (by simpa using hc.names a ha) hok hok'
  rw [hoe, hpe, Except.ok.injEq, text_eq_iff]
  exact hstep.definitions_eq hop ho.known fun n hn => hc.names n (ho.known n hn)

/-- What a map of codes has to satisfy to be given canonical names: the unit name, if declared, is
the empty product, no name is a builtin, and every reference is known. -/
structure WellFormed (codes : Codes) : Prop where
  unit : ∀ code, codes.get? Text.unitName = some code → code = .unit
  names : ∀ n, codes.contains n → ¬Text.isBuiltin n
  refs : ∀ n code, codes.get? n = some code → ∀ r ∈ code.refs, codes.isKnown r

theorem wellFormed_iff {codes : Codes} : codes.WellFormed ↔
    ∀ e ∈ codes.entries, (e.1 = Text.unitName → e.2 = .unit) ∧ ¬Text.isBuiltin e.1 ∧
      ∀ r ∈ e.2.refs, codes.isKnown r := by
  constructor
  · rintro h ⟨n, x⟩ he
    have hx := NameMap.get?_eq_some_iff.2 he
    refine ⟨?_, h.names n (NameMap.contains_of_get? hx), h.refs n x hx⟩
    rintro rfl
    exact h.unit x hx
  · intro h
    refine ⟨fun x hx => ?_, fun n hn => ?_, fun n x hx => ?_⟩
    · exact (h _ (NameMap.get?_eq_some_iff.1 hx)).1 rfl
    · obtain ⟨x, hx⟩ := NameMap.contains_iff.1 hn
      exact (h _ (NameMap.get?_eq_some_iff.1 hx)).2.1
    · exact (h _ (NameMap.get?_eq_some_iff.1 hx)).2.2

instance (codes : Codes) : Decidable codes.WellFormed := decidable_of_iff _ wellFormed_iff.symm

theorem WellFormed.get?_unitName (h : c.WellFormed) :
    c.withUnit.get? Text.unitName = some .unit := by
  unfold withUnit
  split_ifs with hu
  · obtain ⟨x, hx⟩ := NameMap.contains_iff.1 hu
    rw [hx, h.unit x hx]
  · simp [NameMap.get?_insert]

theorem WellFormed.closed (h : c.WellFormed) : c.withUnit.Closed where
  names n hn := by
    rcases contains_withUnit.1 hn with rfl | hn
    · decide
    · exact h.names n hn
  refs n x hx r hr := by
    by_cases hn : n = Text.unitName
    · rw [hn, h.get?_unitName, Option.some.injEq] at hx
      rw [← hx] at hr
      exact absurd hr List.not_mem_nil
    · rw [get?_withUnit c hn] at hx
      have hknown := h.refs n x hx r hr
      simp only [isKnown, Bool.or_eq_true, beq_iff_eq] at hknown
      rw [contains_withUnit]
      tauto

theorem contains_anchor (hn : c.withUnit.contains n) :
    c.withUnit.reduct.contains (c.withUnit.anchor n) :=
  (bisimilar_reduct (contains_withUnit_unitName c) n).contains_iff.1 hn

theorem WellFormed.reduct_closed (h : c.WellFormed) : c.withUnit.reduct.Closed :=
  Codes.reduct_closed (contains_withUnit_unitName c) h.closed

theorem withUnit_reduct_reduced (c : Codes) : c.withUnit.reduct.Reduced :=
  reduct_reduced (contains_withUnit_unitName c)

theorem WellFormed.exists_text (h : c.WellFormed) (hn : c.withUnit.contains n) :
    ∃ text, c.withUnit.reduct.encode (c.withUnit.anchor n) = .ok text := by
  obtain ⟨order, -, -, htext⟩ := encode_eq_ok h.reduct_closed (contains_anchor hn)
  exact ⟨_, htext⟩

theorem bisimilar_anchors_iff (c d : Codes) (a b : String) :
    c.withUnit.reduct.Bisimilar d.withUnit.reduct (c.withUnit.anchor a) (d.withUnit.anchor b) ↔
      c.withUnit.Bisimilar d.withUnit a b := by
  have hc := bisimilar_reduct (contains_withUnit_unitName c) a
  have hd := bisimilar_reduct (contains_withUnit_unitName d) b
  exact ⟨fun h => (hc.trans h).trans hd.symm, fun h => (hc.symm.trans h).trans hd⟩

theorem WellFormed.text_eq_iff (hc : c.WellFormed) (hd : d.WellFormed)
    (ha : c.withUnit.contains a) (hb : d.withUnit.contains b) :
    c.withUnit.reduct.encode (c.withUnit.anchor a) =
      d.withUnit.reduct.encode (d.withUnit.anchor b) ↔ c.withUnit.Bisimilar d.withUnit a b := by
  rw [← bisimilar_anchors_iff]
  constructor
  · exact bisimilar_of_encode_eq hc.reduct_closed hd.reduct_closed (contains_anchor ha)
      (contains_anchor hb)
  · exact Bisimilar.encode_eq hc.reduct_closed hd.reduct_closed (withUnit_reduct_reduced c)
      (withUnit_reduct_reduced d) (contains_anchor ha)

/-- The texts of the anchors of two names are equal exactly if the names are bisimilar. -/
theorem normalized_text_eq_iff_bisimilar (hc : c.WellFormed) (hd : d.WellFormed) {n m : String}
    (hn : c.withUnit.contains n) (hm : d.withUnit.contains m) :
    ∃ p q a b s t, c.withUnit.minimize = .ok p ∧ d.withUnit.minimize = .ok q ∧
      p.representatives.get? n = some a ∧ q.representatives.get? m = some b ∧
      (c.withUnit.normalize p.representatives).encode a = .ok s ∧
      (d.withUnit.normalize q.representatives).encode b = .ok t ∧
      (c.withUnit.Bisimilar d.withUnit n m ↔ s = t) := by
  have hanchor (c : Codes) {n : String} (hn : c.withUnit.contains n) :
      c.withUnit.partition.representatives.get? n = some (c.withUnit.anchor n) := by
    apply get?_representatives_of_contains
    rwa [withUnit_of_contains (contains_withUnit_unitName c)]
  obtain ⟨s, hs⟩ := hc.exists_text hn
  obtain ⟨t, ht⟩ := hd.exists_text hm
  refine ⟨_, _, _, _, s, t, minimize_eq_ok hc.closed, minimize_eq_ok hd.closed, hanchor c hn,
    hanchor d hm, hs, ht, ?_⟩
  rw [← hc.text_eq_iff hd hn hm, hs, ht, Except.ok.injEq]

/-- A stream of integers that refers to itself. -/
def loopedStream : Codes :=
  .ofList [("S", .product (.ofList [("head", "@int"), ("tail", "S")]))]

/-- The same stream, with the loop unrolled once and under other names. -/
def unrolledStream : Codes :=
  .ofList [("T", .product (.ofList [("tail", "U"), ("head", "@int")])),
    ("U", .product (.ofList [("head", "@int"), ("tail", "T")]))]

theorem normalized_text_eq_iff_bisimilar_streams :
    loopedStream.WellFormed ∧ unrolledStream.WellFormed ∧
      loopedStream.withUnit.contains "S" ∧ unrolledStream.withUnit.contains "T" ∧
    ∃ p q a b s t, loopedStream.withUnit.minimize = .ok p ∧
      unrolledStream.withUnit.minimize = .ok q ∧
      p.representatives.get? "S" = some a ∧ q.representatives.get? "T" = some b ∧
      (loopedStream.withUnit.normalize p.representatives).encode a = .ok s ∧
      (unrolledStream.withUnit.normalize q.representatives).encode b = .ok t ∧
      (loopedStream.withUnit.Bisimilar unrolledStream.withUnit "S" "T" ↔ s = t) :=
  ⟨by decide, by decide, by decide, by decide,
    normalized_text_eq_iff_bisimilar (by decide) (by decide) (by decide) (by decide)⟩

end StructuralTyping.Codes
