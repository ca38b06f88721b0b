import StructuralTyping.Proofs.SimplifiedRelation
import StructuralTyping.Proofs.Tokens

/-!
# The text of a relation can be read back

An item of a composition is a word, or starts with a character that says what it is and then ends by
itself. A composition is a list of items apart by spaces, and a field of a product is such a list
whose last entry is a label. So the text of a simplified relation determines it, except that the
references `true` and `false` are read as Boolean literals, which are spelled like them.
-/
namespace StructuralTyping.Relation
open Text
open List (Forall₂)
variable {r s x y : Relation} {rs : List Relation}

section Definitions

mutual

/-- The references `true` and `false` as Boolean literals. -/
def asRead : Relation → Relation
  | product fields => product (asReadFields fields)
  | union rs => union (asReadList rs)
  | vector rs => vector (asReadList rs)
  | comp rs => comp (asReadList rs)
  | ref name =>
    if name = "true" then literal (.bool true)
    else if name = "false" then literal (.bool false)
    else ref name
  | leaf => leaf

def asReadList : List Relation → List Relation
  | [] => []
  | r :: rs => asRead r :: asReadList rs

def asReadFields : List (String × Relation) → List (String × Relation)
  | [] => []
  | (label, r) :: fields => (label, asRead r) :: asReadFields fields

end

theorem asReadList_eq (rs : List Relation) : asReadList rs = rs.map asRead := by
  induction rs with
  | nil => rfl
  | cons r rs ih => rw [asReadList, List.map_cons, ih]

theorem asReadFields_eq (fields : List (String × Relation)) :
    asReadFields fields = fields.map fun e => (e.1, e.2.asRead) := by
  induction fields with
  | nil => rfl
  | cons e fields ih => rw [asReadFields, List.map_cons, ih]

/-- What a node has to satisfy for its text to be read back. -/
def LegibleNode : Relation → Prop
  | comp rs => 2 ≤ rs.length
  | ref name => isIdentifier name
  | code _ | filter _ => False
  | _ => True

/-- A simplified relation that refers to identifiers. -/
inductive Legible : Relation → Prop
  | mk {r : Relation} (node : LegibleNode r) (children : ∀ c ∈ r.children, Legible c) : Legible r

theorem Legible.node (h : Legible r) : LegibleNode r := by
  cases h with
  | mk node _ => exact node

theorem Legible.children (h : Legible r) : ∀ c ∈ r.children, Legible c := by
  cases h with
  | mk _ children => exact children

/-- Renaming the references of a normal form by identifiers makes it legible. -/
theorem Normal.legible_mapRefs {f : String → String} (hr : r.Normal)
    (h : ∀ t ∈ r.occurrences, isIdentifier (f t)) : Legible (r.mapRefs f) := by
  induction r using induction_children with
  | step r ih =>
    obtain ⟨hnode, hchildren⟩ := normal_iff.1 hr
    have hchild : ∀ c ∈ (r.mapRefs f).children, Legible c := by
      rw [children_mapRefs, List.forall_mem_map]
      exact fun c hc => ih c hc (hchildren c hc) fun t ht => h t (mem_occurrences_of_child hc ht)
    cases r with
    | comp rs => exact .mk (by simpa [mapRefs, mapRefsList_eq, LegibleNode] using hnode.1) hchild
    | ref name => exact .mk (h name (by simp [occurrences])) hchild
    | code name | filter f => exact hnode.elim
    | _ => exact .mk trivial hchild

theorem legible_simplify_mapRefs {f : String → String}
    (h : ∀ t ∈ r.occurrences, isIdentifier (f t)) : Legible (r.simplify.mapRefs f) :=
  r.normal_simplify.legible_mapRefs (by rwa [occurrences_simplify])

end Definitions

section Characters

/-- The characters of words, without colours. -/
def spelled (words : List Word) : List Char := words.flatMap (·.text.toList)

theorem spelled_append (ws ws' : List Word) : spelled (ws ++ ws') = spelled ws ++ spelled ws' :=
  List.flatMap_append

theorem spelled_enclose (before after : String) (ws : List Word) :
    spelled (enclose before ws after) = before.toList ++ (spelled ws ++ after.toList) := by
  simp [enclose, spelled, plain]

theorem toList_renderWords (words : List Word) :
    (renderWords false words).toList = spelled words := by
  have hword (w : Word) : w.render false = w.text := by
    cases hcolour : w.style.colour <;> simp [Word.render, hcolour]
  simp [renderWords, spelled, String.toList_join, List.flatMap_map, hword]

theorem spelled_inline (items : List (List Word)) :
    spelled (Text.inline items) = List.intercalate [',', ' '] (items.map spelled) := by
  induction items with
  | nil => rfl
  | cons item items ih =>
    cases items with
    | nil => simp [Text.inline]
    | cons next rest =>
      rw [List.map_cons] at ih
      rw [Text.inline, List.map_cons, List.map_cons, List.intercalate_cons_cons, ← ih]
      · simp [spelled, plain]
      · simp

theorem spelled_spaced (items : List (List Word)) :
    spelled (spaced items) = List.intercalate [' '] (items.map spelled) := by
  induction items with
  | nil => rfl
  | cons item items ih =>
    cases items with
    | nil => simp [spaced]
    | cons next rest =>
      rw [List.map_cons] at ih
      rw [spaced, List.map_cons, List.map_cons, List.intercalate_cons_cons, ← ih]
      · simp [spelled, plain]
      · simp

theorem itemWords_eq (inner : Bool) (rs : List Relation) :
    itemWords inner rs = rs.map (wordsIn inner) := by
  induction rs with
  | nil => rfl
  | cons r rs ih => rw [itemWords, List.map_cons, ih]

theorem fieldWords_eq (fields : List (String × Relation)) :
    fieldWords fields = fields.map fun e => wordsIn false e.2 ++ [plain " ", labelWord e.1] := by
  induction fields with
  | nil => rfl
  | cons e fields ih => rw [fieldWords, List.map_cons, ih]

/-- The text of a relation as an item of a composition. -/
def itemText (r : Relation) : List Char := spelled (wordsIn true r)

/-- The items of a relation at the top. -/
def pieces : Relation → List Relation
  | comp rs => rs
  | r => [r]

/-- The text of a relation at the top. -/
def topText (r : Relation) : List Char := List.intercalate [' '] (r.pieces.map itemText)

/-- The text of a field. -/
def fieldText (field : String × Relation) : List Char :=
  topText field.2 ++ ' ' :: (labelText field.1).toList

theorem wordsIn_product (inner : Bool) (fields : List (String × Relation)) :
    wordsIn inner (product fields) = enclose "\x7b" (Text.inline (fieldWords fields)) "\x7d" := rfl

theorem wordsIn_union (inner : Bool) (rs : List Relation) :
    wordsIn inner (union rs) = enclose "<" (Text.inline (itemWords false rs)) ">" := rfl

theorem wordsIn_vector (inner : Bool) (rs : List Relation) :
    wordsIn inner (vector rs) = enclose "[" (Text.inline (itemWords false rs)) "]" := rfl

theorem wordsIn_ref (inner : Bool) (name : String) : wordsIn inner (ref name) = [plain name] := rfl

theorem wordsIn_dot (inner : Bool) (label : String) :
    wordsIn inner (dot label) = [plain ".", labelWord label] := rfl

theorem wordsIn_literal (inner : Bool) (l : Literal) : wordsIn inner (literal l) = [l.word] := rfl

theorem wordsIn_comp (h : 2 ≤ rs.length) (inner : Bool) : wordsIn inner (comp rs) =
    if inner then enclose "(" (spaced (rs.map (wordsIn true))) ")"
    else spaced (rs.map (wordsIn true)) := by
  match rs with
  | [] | [_] => simp at h
  | r :: s :: rest =>
    rw [← itemWords_eq]
    rfl

theorem spelled_wordsIn_false (h : Legible r) : spelled (wordsIn false r) = topText r := by
  cases r with
  | comp rs =>
    rw [wordsIn_comp h.node]
    simp only [Bool.false_eq_true, if_false, spelled_spaced, List.map_map]
    rfl
  | _ =>
    simp only [topText, pieces, List.map_singleton, List.intercalate_singleton]
    rfl

theorem toList_text (h : Legible r) : r.text.toList = topText r := by
  rw [text, toList_renderWords, words, spelled_wordsIn_false h]

theorem itemText_product {fields : List (String × Relation)} (h : Legible (product fields)) :
    itemText (product fields) =
      '\x7b' :: (List.intercalate [',', ' '] (fields.map fieldText) ++ ['\x7d']) := by
  have hfields : (fieldWords fields).map spelled = fields.map fieldText := by
    rw [fieldWords_eq, List.map_map]
    refine List.map_congr_left fun e he => ?_
    have htop := spelled_wordsIn_false (h.children e.2 (List.mem_map_of_mem he))
    rw [spelled] at htop
    simp [spelled, fieldText, plain, labelWord, htop]
  rw [itemText, wordsIn_product, spelled_enclose, spelled_inline, hfields]
  rfl

theorem spelled_items (h : ∀ r ∈ rs, Legible r) :
    spelled (Text.inline (itemWords false rs)) = List.intercalate [',', ' '] (rs.map topText) := by
  rw [spelled_inline, itemWords_eq, List.map_map]
  congr 1
  exact List.map_congr_left fun r hr => spelled_wordsIn_false (h r hr)

theorem itemText_union (h : Legible (union rs)) :
    itemText (union rs) = '<' :: (List.intercalate [',', ' '] (rs.map topText) ++ ['>']) := by
  have hchildren : ∀ r ∈ rs, Legible r := h.children
  rw [itemText, wordsIn_union, spelled_enclose, spelled_items hchildren]
  rfl

theorem itemText_vector (h : Legible (vector rs)) :
    itemText (vector rs) = '[' :: (List.intercalate [',', ' '] (rs.map topText) ++ [']']) := by
  have hchildren : ∀ r ∈ rs, Legible r := h.children
  rw [itemText, wordsIn_vector, spelled_enclose, spelled_items hchildren]
  rfl

theorem itemText_comp (h : Legible (comp rs)) :
    itemText (comp rs) = '(' :: (List.intercalate [' '] (rs.map itemText) ++ [')']) := by
  have hitems : rs.map itemText = (rs.map (wordsIn true)).map spelled := by
    rw [List.map_map]
    rfl
  rw [itemText, wordsIn_comp h.node, if_pos rfl, spelled_enclose, spelled_spaced, hitems]
  rfl

theorem itemText_dot (label : String) : itemText (dot label) = '.' :: (labelText label).toList := by
  simp [itemText, wordsIn_dot, plain, spelled, labelWord]

theorem itemText_str (value : String) : itemText (literal (.str value)) =
    '"' :: (value.toList.flatMap literalEscape ++ ['"']) := by
  simp [itemText, wordsIn_literal, plain, spelled, Literal.word, quoteLiteral, quote]

end Characters

section Words
variable {w w' : List Char}

/-- The relations whose text is a word. -/
inductive IsWord : Relation → List Char → Prop
  | ref {name : String} (identifier : isIdentifier name) : IsWord (ref name) name.toList
  | int (n : Int64) : IsWord (literal (.int n)) (toString n.toInt).toList
  | true : IsWord (literal (.bool true)) "true".toList
  | false : IsWord (literal (.bool false)) "false".toList

theorem IsWord.itemText (h : IsWord r w) : itemText r = w := by
  cases h with
  | ref identifier => simp [Relation.itemText, wordsIn_ref, plain, spelled]
  | _ => simp [Relation.itemText, wordsIn_literal, plain, spelled, Literal.word]

theorem IsWord.isTokenChar (h : IsWord r w) : w ≠ [] ∧ ∀ c ∈ w, isTokenChar c := by
  cases h with
  | ref identifier =>
    obtain ⟨c, rest, hlist, -, htoken⟩ := isIdentifier_cases identifier
    rw [hlist]
    exact ⟨by simp, htoken⟩
  | int n =>
    obtain ⟨c, rest, hlist, -, htoken⟩ := toString_int_cases n.toInt
    rw [hlist]
    exact ⟨by simp, htoken⟩
  | true | false => exact ⟨by decide, List.all_eq_true.1 (by decide)⟩

theorem toString_int_ne_identifier {name : String} (h : isIdentifier name) (i : Int) :
    name.toList ≠ (toString i).toList := by
  obtain ⟨c, rest, hlist, hc, -⟩ := isIdentifier_cases h
  obtain ⟨d, rest', hlist', hd, -⟩ := toString_int_cases i
  rw [hlist, hlist']
  intro heq
  exact hd ((List.cons.inj heq).1 ▸ hc)

theorem IsWord.asRead_eq (hx : IsWord x w) (hy : IsWord y w') (h : w = w') :
    x.asRead = y.asRead := by
  have htrue (i : Int) : "true".toList ≠ (toString i).toList :=
    toString_int_ne_identifier (by decide) i
  have hfalse (i : Int) : "false".toList ≠ (toString i).toList :=
    toString_int_ne_identifier (by decide) i
  cases hx with
  | @ref a ha =>
    cases hy with
    | @ref b _ => rw [String.toList_injective h]
    | int n => exact absurd h (toString_int_ne_identifier ha _)
    | true => simp [asRead, String.toList_injective h]
    | false => simp [asRead, String.toList_injective h]
  | int n =>
    cases hy with
    | ref hb => exact absurd h.symm (toString_int_ne_identifier hb _)
    | int m => rw [Int64.toInt_inj.1 (toString_int_injective h)]
    | true => exact absurd h.symm (htrue _)
    | false => exact absurd h.symm (hfalse _)
  | true =>
    cases hy with
    | ref _ => simp [asRead, ← String.toList_injective h]
    | int n => exact absurd h (htrue _)
    | true => rfl
    | false => exact absurd h (by decide)
  | false =>
    cases hy with
    | ref _ => simp [asRead, ← String.toList_injective h]
    | int n => exact absurd h (hfalse _)
    | true => exact absurd h (by decide)
    | false => rfl

/-- What is no word says by its first character what it is. -/
inductive IsOpened : Relation → Char → List Char → Prop
  | product (fields : List (String × Relation)) : IsOpened (product fields) '\x7b'
      (List.intercalate [',', ' '] (fields.map fieldText) ++ ['\x7d'])
  | union (rs : List Relation) : IsOpened (union rs) '<'
      (List.intercalate [',', ' '] (rs.map topText) ++ ['>'])
  | vector (rs : List Relation) : IsOpened (vector rs) '['
      (List.intercalate [',', ' '] (rs.map topText) ++ [']'])
  | comp (rs : List Relation) : IsOpened (comp rs) '('
      (List.intercalate [' '] (rs.map itemText) ++ [')'])
  | identity : IsOpened identity '(' [')']
  | dot (label : String) : IsOpened (dot label) '.' (labelText label).toList
  | str (value : String) : IsOpened (literal (.str value)) '"'
      (value.toList.flatMap literalEscape ++ ['"'])

theorem IsOpened.itemText {c : Char} {body : List Char} (h : Legible r) (hr : IsOpened r c body) :
    itemText r = c :: body := by
  cases hr with
  | product fields => exact itemText_product h
  | union rs => exact itemText_union h
  | vector rs => exact itemText_vector h
  | comp rs => exact itemText_comp h
  | identity => rfl
  | dot label => exact itemText_dot label
  | str value => exact itemText_str value

theorem IsOpened.not_token {c : Char} {body : List Char} (h : IsOpened r c body) :
    ¬Text.isTokenChar c ∧ c ≠ '\'' := by
  cases h <;> decide

theorem Legible.isWord_or_isOpened (h : Legible r) :
    (∃ w, IsWord r w) ∨ ∃ c body, IsOpened r c body := by
  cases r with
  | product fields => exact .inr ⟨_, _, .product fields⟩
  | union rs => exact .inr ⟨_, _, .union rs⟩
  | vector rs => exact .inr ⟨_, _, .vector rs⟩
  | comp rs => exact .inr ⟨_, _, .comp rs⟩
  | ref name => exact .inl ⟨_, .ref h.node⟩
  | dot label => exact .inr ⟨_, _, .dot label⟩
  | filter f => exact h.node.elim
  | code name => exact h.node.elim
  | identity => exact .inr ⟨_, _, .identity⟩
  | literal value =>
    cases value with
    | int n => exact .inl ⟨_, .int n⟩
    | str s => exact .inr ⟨_, _, .str s⟩
    | bool b => cases b with
      | true => exact .inl ⟨_, .true⟩
      | false => exact .inl ⟨_, .false⟩

end Words

section Reading

/-- The item can be told from any other by the start of a text. -/
def Reads (x : Relation) : Prop :=
  ∀ y, Legible y → ∀ r q, Breaks r → Breaks q → itemText x ++ r = itemText y ++ q →
    x.asRead = y.asRead ∧ r = q

/-- Neither a word nor a composition goes on here. -/
def Stops (rest : List Char) : Prop := Breaks rest ∧ rest.head? ≠ some ' '

theorem Stops.cons {c : Char} (h : ¬isTokenChar c) (hc : c ≠ ' ') (rest : List Char) :
    Stops (c :: rest) := ⟨breaks_cons.2 h, by simpa using hc⟩

theorem Legible.pieces_cases (h : Legible r) :
    (∃ rs, r = comp rs ∧ r.pieces = rs ∧ 2 ≤ rs.length) ∨ r.pieces = [r] := by
  cases r with
  | comp rs => exact .inl ⟨rs, rfl, rfl, h.node⟩
  | _ => exact .inr rfl

theorem Legible.pieces_ne_nil (h : Legible r) : r.pieces ≠ [] := by
  rcases h.pieces_cases with ⟨rs, -, hpieces, hlength⟩ | hpieces
  · rw [hpieces]
    exact List.ne_nil_of_length_pos (by omega)
  · rw [hpieces]
    exact List.cons_ne_nil r []

theorem Legible.piece (h : Legible r) {p : Relation} (hp : p ∈ r.pieces) : Legible p := by
  rcases h.pieces_cases with ⟨rs, rfl, -, -⟩ | hpieces
  · exact h.children p hp
  · rw [hpieces, List.mem_singleton] at hp
    exact hp ▸ h

theorem asRead_eq_of_pieces (hx : Legible x) (hy : Legible y)
    (h : Forall₂ (fun p o => p.asRead = o.asRead) x.pieces y.pieces) : x.asRead = y.asRead := by
  have hlength := h.length_eq
  rcases hx.pieces_cases with ⟨rs, rfl, hpx, hrs⟩ | hpx <;>
    rcases hy.pieces_cases with ⟨ss, rfl, hpy, hss⟩ | hpy <;>
    rw [hpx, hpy] at h hlength
  · rw [asRead, asRead, asReadList_eq, asReadList_eq]
    refine congrArg comp ?_
    rwa [← List.forall₂_eq_eq_eq, List.forall₂_map_left_iff, List.forall₂_map_right_iff]
  · simp at hlength
    omega
  · simp at hlength
    omega
  · simpa using h

/-- A relation at the top can be read back. -/
theorem topText_append_inj (hx : Legible x) (hy : Legible y) (hread : ∀ p ∈ x.pieces, Reads p)
    {r q : List Char} (hr : Stops r) (hq : Stops q) (h : topText x ++ r = topText y ++ q) :
    x.asRead = y.asRead ∧ r = q := by
  obtain ⟨hpieces, hrest⟩ := intercalate_append_inj (p := Breaks)
    (e := fun p o : Relation => p.asRead = o.asRead) (fun rest => breaks_cons.2 (by decide))
    hx.pieces_ne_nil hy.pieces_ne_nil (fun p hp o ho => hread p hp o (hy.piece ho))
    hr.1 hq.1 hr.2 hq.2 h
  exact ⟨asRead_eq_of_pieces hx hy hpieces, hrest⟩

/-- An item and a label that are written alike end alike. -/
theorem item_label_rest (hx : Legible x) {label : String} {r q : List Char} (hr : Breaks r)
    (hq : Breaks q) (h : itemText x ++ r = (labelText label).toList ++ q) : r = q := by
  rcases hx.isWord_or_isOpened with ⟨w, hw⟩ | ⟨c, body, hc⟩ <;>
    rcases labelText_cases label with ⟨htext, hne, htoken⟩ | htext
  · rw [hw.itemText, htext] at h
    exact (token_append_inj hw.isTokenChar.2 htoken hr hq h).2
  · rw [hw.itemText, htext] at h
    exact absurd h (token_append_ne hw.isTokenChar.1 hw.isTokenChar.2 (by decide))
  · rw [hc.itemText hx, htext] at h
    exact absurd h.symm (token_append_ne hne htoken hc.not_token.1)
  · rw [hc.itemText hx, htext] at h
    exact absurd (List.cons.inj h).1 hc.not_token.2

/-- A field is the items of its relation and then its label. -/
def fieldParts (field : String × Relation) : List (Relation ⊕ String) :=
  field.2.pieces.map .inl ++ [.inr field.1]

def partText : Relation ⊕ String → List Char
  | .inl r => itemText r
  | .inr label => (labelText label).toList

def PartsAgree : Relation ⊕ String → Relation ⊕ String → Prop
  | .inl x, .inl y => x.asRead = y.asRead
  | .inr label, .inr label' => label = label'
  | _, _ => True

theorem fieldText_eq {field : String × Relation} (h : field.2.pieces ≠ []) :
    fieldText field = List.intercalate [' '] ((fieldParts field).map partText) := by
  obtain ⟨label, r⟩ := field
  simp only [fieldText, topText, fieldParts, List.map_append, List.map_map, List.map_cons,
    List.map_nil, partText, Function.comp_def]
  generalize r.pieces = ps at h
  induction ps with
  | nil => exact absurd rfl h
  | cons p ps ih =>
    cases ps with
    | nil => simp [List.intercalate_cons_cons]
    | cons o ps =>
      have hrest := ih (by simp)
      simp only [List.map_cons, List.cons_append] at hrest ⊢
      rw [List.intercalate_cons_cons, List.intercalate_cons_cons, ← hrest]
      simp

theorem agree_of_fieldParts {xs ys : List Relation} {label label' : String}
    (h : Forall₂ PartsAgree (xs.map .inl ++ [.inr label]) (ys.map .inl ++ [.inr label'])) :
    Forall₂ (fun p o => p.asRead = o.asRead) xs ys ∧ label = label' := by
  induction xs generalizing ys with
  | nil =>
    cases ys with
    | nil => exact ⟨.nil, by simpa [PartsAgree] using h⟩
    | cons y ys => simpa using h.length_eq
  | cons x xs ih =>
    cases ys with
    | nil => simpa using h.length_eq
    | cons y ys =>
      simp only [List.map_cons, List.cons_append, List.forall₂_cons] at h
      obtain ⟨hrest, hlabel⟩ := ih h.2
      exact ⟨.cons h.1 hrest, hlabel⟩

theorem fieldText_append_inj {e f : String × Relation} (he : Legible e.2) (hf : Legible f.2)
    (hread : ∀ p ∈ e.2.pieces, Reads p) {r q : List Char} (hr : Stops r) (hq : Stops q)
    (h : fieldText e ++ r = fieldText f ++ q) : (e.1 = f.1 ∧ e.2.asRead = f.2.asRead) ∧ r = q := by
  rw [fieldText_eq he.pieces_ne_nil, fieldText_eq hf.pieces_ne_nil] at h
  have hparts : ∀ p ∈ fieldParts e, ∀ o ∈ fieldParts f, ∀ r q, Breaks r → Breaks q →
      partText p ++ r = partText o ++ q → PartsAgree p o ∧ r = q := by
    intro p hp o ho r q hr hq heq
    simp only [fieldParts, List.mem_append, List.mem_map, List.mem_singleton] at hp ho
    rcases hp with ⟨x, hx, rfl⟩ | rfl <;> rcases ho with ⟨y, hy, rfl⟩ | rfl
    · exact hread x hx y (hf.piece hy) r q hr hq heq
    · exact ⟨trivial, item_label_rest (he.piece hx) hr hq heq⟩
    · exact ⟨trivial, (item_label_rest (hf.piece hy) hq hr heq.symm).symm⟩
    · exact labelText_append_inj hr hq heq
  obtain ⟨hagree, hrest⟩ := intercalate_append_inj (p := Breaks)
    (fun rest => breaks_cons.2 (by decide)) (by simp [fieldParts]) (by simp [fieldParts]) hparts
    hr.1 hq.1 hr.2 hq.2 h
  obtain ⟨hpieces, hlabel⟩ := agree_of_fieldParts hagree
  exact ⟨⟨hlabel, asRead_eq_of_pieces he hf hpieces⟩, hrest⟩

/-- The characters that end a bracket. -/
def IsCloser (c : Char) : Prop := c = '>' ∨ c = ']' ∨ c = '\x7d' ∨ c = ')'

theorem IsCloser.not_token {c : Char} (h : IsCloser c) : ¬isTokenChar c := by
  rcases h with rfl | rfl | rfl | rfl <;> decide

theorem IsCloser.stops {c : Char} (h : IsCloser c) (rest : List Char) : Stops (c :: rest) := by
  refine Stops.cons h.not_token ?_ rest
  rcases h with rfl | rfl | rfl | rfl <;> decide

theorem IsCloser.ne_comma {c : Char} (h : IsCloser c) : c ≠ ',' := by
  rcases h with rfl | rfl | rfl | rfl <;> decide

theorem itemText_ne (hx : Legible x) {c : Char} (hc : IsCloser c) (r q : List Char) :
    itemText x ++ r ≠ c :: q := by
  rcases hx.isWord_or_isOpened with ⟨w, hw⟩ | ⟨d, body, hd⟩
  · rw [hw.itemText]
    exact token_append_ne hw.isTokenChar.1 hw.isTokenChar.2 hc.not_token
  · rw [hd.itemText hx]
    intro h
    obtain rfl : d = c := (List.cons.inj h).1
    cases hd <;> simp [IsCloser] at hc

theorem topText_ne (hx : Legible x) {c : Char} (hc : IsCloser c) (r q : List Char) :
    topText x ++ r ≠ c :: q :=
  intercalate_ne hx.pieces_ne_nil fun _ hp => itemText_ne (hx.piece hp) hc

theorem fieldText_ne {e : String × Relation} (he : Legible e.2) {c : Char} (hc : IsCloser c)
    (r q : List Char) : fieldText e ++ r ≠ c :: q := by
  rw [fieldText, List.append_assoc]
  exact topText_ne he hc _ q

theorem size_lt_of_child {c : Relation} (h : c ∈ x.children) : c.size < x.size := by
  have hle := size_le_sizeList h
  have hsize := size_eq_succ x
  omega

theorem size_le_of_piece {p : Relation} (h : p ∈ x.pieces) : p.size ≤ x.size := by
  cases x with
  | comp rs => exact Nat.le_of_lt (size_lt_of_child (x := comp rs) h)
  | _ => exact List.mem_singleton.1 h ▸ Nat.le_refl _

theorem itemsText_append_inj {rs ss : List Relation} (hrs : ∀ c ∈ rs, Legible c)
    (hss : ∀ c ∈ ss, Legible c) (hread : ∀ c ∈ rs, ∀ p ∈ c.pieces, Reads p) {c : Char}
    (hc : IsCloser c) {r q : List Char}
    (h : List.intercalate [',', ' '] (rs.map topText) ++ c :: r =
      List.intercalate [',', ' '] (ss.map topText) ++ c :: q) :
    rs.map asRead = ss.map asRead ∧ r = q := by
  obtain ⟨hall, hrest⟩ := enclosed_append_inj (p := Stops)
    (e := fun x y : Relation => x.asRead = y.asRead)
    (Stops.cons (by decide) (by decide)) hc.stops hc.ne_comma
    (fun x hx => topText_ne (hrs x hx) hc) (fun y hy => topText_ne (hss y hy) hc)
    (fun x hx y hy r q => topText_append_inj (hrs x hx) (hss y hy) (hread x hx)) h
  refine ⟨?_, hrest⟩
  rwa [← List.forall₂_eq_eq_eq, List.forall₂_map_left_iff, List.forall₂_map_right_iff]

theorem fieldsText_append_inj {es fs : List (String × Relation)} (hes : ∀ e ∈ es, Legible e.2)
    (hfs : ∀ f ∈ fs, Legible f.2) (hread : ∀ e ∈ es, ∀ p ∈ e.2.pieces, Reads p)
    {r q : List Char}
    (h : List.intercalate [',', ' '] (es.map fieldText) ++ '\x7d' :: r =
      List.intercalate [',', ' '] (fs.map fieldText) ++ '\x7d' :: q) :
    asReadFields es = asReadFields fs ∧ r = q := by
  have hc : IsCloser '\x7d' := .inr (.inr (.inl rfl))
  obtain ⟨hall, hrest⟩ := enclosed_append_inj (p := Stops)
    (e := fun e f : String × Relation => e.1 = f.1 ∧ e.2.asRead = f.2.asRead)
    (Stops.cons (by decide) (by decide)) hc.stops (by decide)
    (fun e he => fieldText_ne (hes e he) hc) (fun f hf => fieldText_ne (hfs f hf) hc)
    (fun e he f hf r q => fieldText_append_inj (hes e he) (hfs f hf) (hread e he)) h
  refine ⟨?_, hrest⟩
  rw [asReadFields_eq, asReadFields_eq, ← List.forall₂_eq_eq_eq, List.forall₂_map_left_iff,
    List.forall₂_map_right_iff]
  exact hall.imp fun e f hef => Prod.ext hef.1 hef.2

theorem compText_append_inj {rs ss : List Relation} (hrs : Legible (comp rs))
    (hss : Legible (comp ss)) (hread : ∀ p ∈ rs, Reads p) {r q : List Char}
    (h : List.intercalate [' '] (rs.map itemText) ++ ')' :: r =
      List.intercalate [' '] (ss.map itemText) ++ ')' :: q) :
    (comp rs).asRead = (comp ss).asRead ∧ r = q := by
  have hc : IsCloser ')' := .inr (.inr (.inr rfl))
  obtain ⟨heq, hrest⟩ := topText_append_inj hrs hss hread (hc.stops r) (hc.stops q) h
  exact ⟨heq, (List.cons.inj hrest).2⟩

/-- What starts with the same character is the same kind of relation, or the identity. -/
theorem IsOpened.append_inj {c d : Char} {body body' : List Char} (hx : Legible x) (hy : Legible y)
    (hchild : ∀ c ∈ x.children, Reads c) (hpiece : ∀ c ∈ x.children, ∀ p ∈ c.pieces, Reads p)
    (hc : IsOpened x c body) (hd : IsOpened y d body') {r q : List Char} (hr : Breaks r)
    (hq : Breaks q) (hopen : c = d) (h : body ++ r = body' ++ q) :
    x.asRead = y.asRead ∧ r = q := by
  have hclose : IsCloser ')' := .inr (.inr (.inr rfl))
  cases hc with
  | product es =>
    cases hd with
    | product fs =>
      simp only [List.append_assoc, List.cons_append, List.nil_append] at h
      obtain ⟨heq, hrest⟩ := fieldsText_append_inj
        (fun e he => hx.children e.2 (List.mem_map_of_mem he))
        (fun f hf => hy.children f.2 (List.mem_map_of_mem hf))
        (fun e he => hpiece e.2 (List.mem_map_of_mem he)) h
      exact ⟨congrArg Relation.product heq, hrest⟩
    | _ => exact absurd hopen (by decide)
  | union rs =>
    cases hd with
    | union ss =>
      simp only [List.append_assoc, List.cons_append, List.nil_append] at h
      obtain ⟨heq, hrest⟩ := itemsText_append_inj hx.children hy.children hpiece (.inl rfl) h
      rw [← asReadList_eq, ← asReadList_eq] at heq
      exact ⟨congrArg Relation.union heq, hrest⟩
    | _ => exact absurd hopen (by decide)
  | vector rs =>
    cases hd with
    | vector ss =>
      simp only [List.append_assoc, List.cons_append, List.nil_append] at h
      obtain ⟨heq, hrest⟩ := itemsText_append_inj hx.children hy.children hpiece (.inr (.inl rfl)) h
      rw [← asReadList_eq, ← asReadList_eq] at heq
      exact ⟨congrArg Relation.vector heq, hrest⟩
    | _ => exact absurd hopen (by decide)
  | comp rs =>
    simp only [List.append_assoc, List.cons_append, List.nil_append] at h
    cases hd with
    | comp ss =>
      simp only [List.append_assoc, List.cons_append, List.nil_append] at h
      exact compText_append_inj hx hy hchild h
    | identity => exact absurd h (topText_ne hx hclose _ _)
    | _ => exact absurd hopen (by decide)
  | identity =>
    cases hd with
    | comp ss =>
      simp only [List.append_assoc, List.cons_append, List.nil_append] at h
      exact absurd h.symm (topText_ne hy hclose _ _)
    | identity => exact ⟨rfl, List.append_cancel_left h⟩
    | _ => exact absurd hopen (by decide)
  | dot label =>
    cases hd with
    | dot label' =>
      obtain ⟨rfl, hrest⟩ := labelText_append_inj hr hq h
      exact ⟨rfl, hrest⟩
    | _ => exact absurd hopen (by decide)
  | str value =>
    cases hd with
    | str value' =>
      simp only [List.append_assoc, List.cons_append, List.nil_append] at h
      obtain ⟨heq, hrest⟩ := literalEscape_escapesBy.append_inj (by decide) h
      rw [String.toList_injective heq]
      exact ⟨rfl, hrest⟩
    | _ => exact absurd hopen (by decide)

theorem Legible.reads (hx : Legible x) : Reads x := by
  -- The pieces of a child are grandchildren at most, so the induction is on the size.
  induction hsize : x.size using Nat.strongRecOn generalizing x with
  | ind k ih =>
    have hchild : ∀ c ∈ x.children, Reads c := fun c hc =>
      ih c.size (hsize ▸ size_lt_of_child hc) (hx.children c hc) rfl
    have hpiece : ∀ c ∈ x.children, ∀ p ∈ c.pieces, Reads p := fun c hc p hp =>
      ih p.size (hsize ▸ Nat.lt_of_le_of_lt (size_le_of_piece hp) (size_lt_of_child hc))
        ((hx.children c hc).piece hp) rfl
    intro y hy r q hr hq h
    rcases hx.isWord_or_isOpened with ⟨w, hw⟩ | ⟨c, body, hc⟩ <;>
      rcases hy.isWord_or_isOpened with ⟨w', hw'⟩ | ⟨d, body', hd⟩
    · rw [hw.itemText, hw'.itemText] at h
      obtain ⟨hword, hrest⟩ := token_append_inj hw.isTokenChar.2 hw'.isTokenChar.2 hr hq h
      exact ⟨hw.asRead_eq hw' hword, hrest⟩
    · rw [hw.itemText, hd.itemText hy] at h
      exact absurd h (token_append_ne hw.isTokenChar.1 hw.isTokenChar.2 hd.not_token.1)
    · rw [hc.itemText hx, hw'.itemText] at h
      exact absurd h.symm (token_append_ne hw'.isTokenChar.1 hw'.isTokenChar.2 hc.not_token.1)
    · rw [hc.itemText hx, hd.itemText hy, List.cons_append, List.cons_append,
        List.cons.injEq] at h
      exact hc.append_inj hx hy hchild hpiece hd hr hq h.1 h.2

/-- The text of a relation determines it, up to Boolean literals. -/
theorem asRead_eq_of_text_eq (hx : Legible x) (hy : Legible y) (h : x.text = y.text) :
    x.asRead = y.asRead := by
  have htop : topText x ++ [] = topText y ++ [] := by
    rw [← toList_text hx, ← toList_text hy, h]
  have hend : Stops [] := ⟨breaks_nil, by simp⟩
  exact (topText_append_inj hx hy (fun p hp => (hx.piece hp).reads) hend hend htop).1

end Reading

section Simplified

/-- Words are coloured apart if they are Boolean literals, but spelled alike. -/
theorem spelled_wordsIn_asRead (inner : Bool) :
    spelled (wordsIn inner r.asRead) = spelled (wordsIn inner r) := by
  induction r using induction_children generalizing inner with
  | step r ih =>
    have hitems (rs : List Relation) (hrs : ∀ c ∈ rs, c ∈ r.children) (inner : Bool) :
        (itemWords inner (asReadList rs)).map spelled = (itemWords inner rs).map spelled := by
      rw [itemWords_eq, itemWords_eq, asReadList_eq, List.map_map, List.map_map, List.map_map]
      exact List.map_congr_left fun c hc => ih c (hrs c hc) inner
    cases r with
    | product fields =>
      have hfields : (fieldWords (asReadFields fields)).map spelled =
          (fieldWords fields).map spelled := by
        rw [fieldWords_eq, fieldWords_eq, asReadFields_eq, List.map_map, List.map_map,
          List.map_map]
        refine List.map_congr_left fun e he => ?_
        simp only [Function.comp_apply, spelled_append, ih e.2 (List.mem_map_of_mem he) false]
      simp only [asRead, wordsIn_product, spelled_enclose, spelled_inline, hfields]
    | union rs | vector rs =>
      have hall := hitems rs (fun _ h => h) false
      simp only [asRead, wordsIn_union, wordsIn_vector, spelled_enclose, spelled_inline, hall]
    | comp rs =>
      match rs with
      | [] => rfl
      | [s] => exact ih s (by simp [children]) true
      | s :: s' :: rest =>
        have hall := hitems (s :: s' :: rest) (fun _ h => h) true
        have hspaced : spelled (spaced (itemWords true (asReadList (s :: s' :: rest)))) =
            spelled (spaced (itemWords true (s :: s' :: rest))) := by
          rw [spelled_spaced, spelled_spaced, hall]
        cases inner with
        | true =>
          change
            spelled (enclose "(" (spaced (itemWords true (asReadList (s :: s' :: rest)))) ")") =
              spelled (enclose "(" (spaced (itemWords true (s :: s' :: rest))) ")")
          rw [spelled_enclose, spelled_enclose, hspaced]
        | false => exact hspaced
    | ref name =>
      rw [asRead]
      split_ifs with htrue hfalse
      · rw [htrue]
        rfl
      · rw [hfalse]
        rfl
      · rfl
    | _ => rfl

theorem text_asRead (r : Relation) : r.asRead.text = r.text := by
  apply String.toList_injective
  rw [text, text, toList_renderWords, toList_renderWords, words, words, spelled_wordsIn_asRead]

theorem legible_simplify (h : ∀ t ∈ r.simplify.occurrences, isIdentifier t) :
    Legible r.simplify := by
  have hlegible : Legible (r.simplify.mapRefs fun t => t) := r.normal_simplify.legible_mapRefs h
  rwa [mapRefs_id] at hlegible

/-- Simplified relations that refer to identifiers have one text exactly if they are equal up to
the spelling of Boolean literals, whatever labels and literals they have. Of the escapes in string
literals only `literalEscape_escapesBy` is used. -/
theorem text_simplify_eq_iff (hx : ∀ t ∈ x.simplify.occurrences, isIdentifier t)
    (hy : ∀ t ∈ y.simplify.occurrences, isIdentifier t) :
    x.simplify.text = y.simplify.text ↔ x.simplify.asRead = y.simplify.asRead := by
  constructor
  · exact asRead_eq_of_text_eq (legible_simplify hx) (legible_simplify hy)
  · intro h
    rw [← text_asRead x.simplify, h, text_asRead]

/-- A flag that is projected and compared with a text, under labels that need quotes. -/
def flagged (flag : Relation) : Relation :=
  product [("it's", comp [flag, dot "a b", literal (.str "say \"x\"")])]

/-- A flag is written like a reference of its name, and unlike the other flag. -/
theorem text_simplify_eq_iff_flagged :
    (∀ t ∈ (flagged (ref "true")).simplify.occurrences, isIdentifier t) ∧
    (∀ t ∈ (flagged (literal (.bool true))).simplify.occurrences, isIdentifier t) ∧
    (∀ t ∈ (flagged (ref "false")).simplify.occurrences, isIdentifier t) ∧
    (flagged (ref "true")).simplify.text = (flagged (literal (.bool true))).simplify.text ∧
    (flagged (ref "true")).simplify.text ≠ (flagged (ref "false")).simplify.text := by
  have htrue : ∀ t ∈ (flagged (ref "true")).simplify.occurrences, isIdentifier t := by decide
  have hliteral : ∀ t ∈ (flagged (literal (.bool true))).simplify.occurrences, isIdentifier t := by
    decide
  have hfalse : ∀ t ∈ (flagged (ref "false")).simplify.occurrences, isIdentifier t := by decide
  refine ⟨htrue, hliteral, hfalse, ?_, ?_⟩
  · exact (text_simplify_eq_iff htrue hliteral).2 (by decide)
  · exact (text_simplify_eq_iff htrue hfalse).not.2 (by decide)

end Simplified

end StructuralTyping.Relation
