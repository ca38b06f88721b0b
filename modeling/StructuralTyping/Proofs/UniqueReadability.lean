import Mathlib.Data.List.Basic
import StructuralTyping.Code.Encoding
import StructuralTyping.Proofs.TreeEquality

/-!
# The encoding can be read back

In the text of a code a builtin reference stands for itself and any other for its number. The text
is a function of the numbered codes in it, and each part of it ends where the text says so: a number
or builtin before a quote or bracket, a label at the quote that is not escaped, a list of fields at
its bracket. Main statement: texts of lists of definitions are equal exactly if the numbered codes
are.
-/
namespace StructuralTyping

/-- Lists without the stop element are read back up to it. -/
theorem append_stop_inj {α : Type} {stop : α} {l k r q : List α} (hl : stop ∉ l) (hk : stop ∉ k)
    (h : l ++ stop :: r = k ++ stop :: q) : l = k ∧ r = q := by
  induction l generalizing k with
  | nil =>
    cases k with
    | nil => simpa using h
    | cons b k => exact absurd (List.mem_cons.2 (.inl (List.cons.inj h).1)) hk
  | cons a l ih =>
    cases k with
    | nil => exact absurd (List.mem_cons.2 (.inl (List.cons.inj h).1.symm)) hl
    | cons b k =>
      simp only [List.mem_cons, not_or] at hl hk
      obtain ⟨rfl, htail⟩ := List.cons.inj h
      obtain ⟨rfl, rfl⟩ := ih hl.2 hk.2 htail
      exact ⟨rfl, rfl⟩

namespace Text

def hexValue (c : Char) : Nat := if c.toNat < 58 then c.toNat - 48 else c.toNat - 87

/-- Read what follows the backslash of an escaped character. -/
def readEscape : List Char → Option (Char × List Char)
  | 'u' :: '0' :: '0' :: high :: low :: rest =>
    some (.ofNat (16 * hexValue high + hexValue low), rest)
  | 'n' :: rest => some ('\n', rest)
  | 'r' :: rest => some ('\r', rest)
  | 't' :: rest => some ('\t', rest)
  | 'b' :: rest => some (.ofNat 8, rest)
  | 'f' :: rest => some (.ofNat 12, rest)
  | c :: rest => some (c, rest)
  | [] => none

/-- A character stands for itself, or is a backslash before an escape that can be read back. -/
def EscapesBy (stop : Char) (escape : Char → List Char)
    (read : List Char → Option (Char × List Char)) : Prop :=
  ∀ c, (c ≠ stop ∧ c ≠ '\\' ∧ escape c = [c]) ∨
    ∃ tail, escape c = '\\' :: tail ∧ ∀ rest, read (tail ++ rest) = some (c, rest)

section Escapes
variable {stop : Char} {escape : Char → List Char} {read : List Char → Option (Char × List Char)}

theorem EscapesBy.ne_stop (h : EscapesBy stop escape read) (hstop : stop ≠ '\\') (c : Char)
    (rest tail : List Char) : escape c ++ rest ≠ stop :: tail := by
  rcases h c with ⟨hc, -, hself⟩ | ⟨_, hescape, -⟩
  · rw [hself]
    exact fun heq => hc (List.cons.inj heq).1
  · rw [hescape]
    exact fun heq => hstop (List.cons.inj heq).1.symm

theorem EscapesBy.char_append_inj (h : EscapesBy stop escape read) {c d : Char} {r q : List Char}
    (heq : escape c ++ r = escape d ++ q) : c = d ∧ r = q := by
  rcases h c with ⟨-, hc, hself⟩ | ⟨_, hescape, hread⟩ <;>
    rcases h d with ⟨-, hd, hself'⟩ | ⟨_, hescape', hread'⟩
  · rw [hself, hself'] at heq
    exact List.cons.inj heq
  · rw [hself, hescape'] at heq
    exact absurd (List.cons.inj heq).1 hc
  · rw [hescape, hself'] at heq
    exact absurd (List.cons.inj heq).1.symm hd
  · rw [hescape, hescape', List.cons_append, List.cons_append] at heq
    have hboth := congrArg read (List.cons.inj heq).2
    rw [hread, hread', Option.some.injEq, Prod.mk.injEq] at hboth
    exact hboth

/-- What is quoted ends at the first quote that is not escaped. -/
theorem EscapesBy.append_inj (h : EscapesBy stop escape read) (hstop : stop ≠ '\\')
    {cs ds r q : List Char}
    (heq : cs.flatMap escape ++ stop :: r = ds.flatMap escape ++ stop :: q) :
    cs = ds ∧ r = q := by
  induction cs generalizing ds with
  | nil =>
    cases ds with
    | nil => simpa using heq
    | cons d ds =>
      rw [List.flatMap_cons, List.append_assoc] at heq
      exact absurd heq.symm (h.ne_stop hstop d _ _)
  | cons c cs ih =>
    cases ds with
    | nil =>
      rw [List.flatMap_cons, List.append_assoc] at heq
      exact absurd heq (h.ne_stop hstop c _ _)
    | cons d ds =>
      rw [List.flatMap_cons, List.flatMap_cons, List.append_assoc, List.append_assoc] at heq
      obtain ⟨rfl, hrest⟩ := h.char_append_inj heq
      obtain ⟨rfl, rfl⟩ := ih hrest
      exact ⟨rfl, rfl⟩

end Escapes

theorem hexValue_hexDigit {n : Nat} (h : n < 16) : hexValue (hexDigit n) = n := by
  revert h
  revert n
  decide

theorem dataEscape_escapesBy : EscapesBy '"' dataEscape readEscape := by
  intro c
  by_cases h₁ : c = '"'
  · subst h₁
    exact .inr ⟨['"'], rfl, fun _ => rfl⟩
  by_cases h₂ : c = '\\'
  · subst h₂
    exact .inr ⟨['\\'], rfl, fun _ => rfl⟩
  by_cases h₃ : c = '\n'
  · subst h₃
    exact .inr ⟨['n'], rfl, fun _ => rfl⟩
  by_cases h₄ : c = '\r'
  · subst h₄
    exact .inr ⟨['r'], rfl, fun _ => rfl⟩
  by_cases h₅ : c = '\t'
  · subst h₅
    exact .inr ⟨['t'], rfl, fun _ => rfl⟩
  by_cases h₆ : c.toNat = 8
  · obtain rfl : Char.ofNat 8 = c := by rw [← h₆, Char.ofNat_toNat]
    exact .inr ⟨['b'], rfl, fun _ => rfl⟩
  by_cases h₇ : c.toNat = 12
  · obtain rfl : Char.ofNat 12 = c := by rw [← h₇, Char.ofNat_toNat]
    exact .inr ⟨['f'], rfl, fun _ => rfl⟩
  by_cases h₈ : c.toNat < 32
  · refine .inr ⟨['u', '0', '0', hexDigit (c.toNat / 16), hexDigit (c.toNat % 16)], ?_, ?_⟩
    · simp only [dataEscape, h₁, h₂, h₃, h₄, h₅, h₆, h₇, h₈, if_true, if_false]
    · intro rest
      change some (Char.ofNat (16 * hexValue (hexDigit (c.toNat / 16)) +
        hexValue (hexDigit (c.toNat % 16))), rest) = some (c, rest)
      rw [hexValue_hexDigit (by omega), hexValue_hexDigit (by omega), Nat.div_add_mod,
        Char.ofNat_toNat]
  · refine .inl ⟨h₁, h₂, ?_⟩
    simp only [dataEscape, h₁, h₂, h₃, h₄, h₅, h₆, h₇, h₈, if_false]

theorem toList_quoteData (s : String) :
    (quoteData s).toList = '"' :: (s.toList.flatMap dataEscape ++ ['"']) := by
  simp [quoteData, quote]

theorem not_isLetter_of_isDigit {c : Char} (h : isDigit c) : ¬(isLetter c || c == '_') := by
  intro hc
  simp only [isDigit, isLetter, Char.le_def, Bool.or_eq_true, Bool.and_eq_true,
    decide_eq_true_eq, beq_iff_eq, UInt32.le_iff_toNat_le] at h hc
  rcases hc with (⟨hlow, -⟩ | ⟨hlow, -⟩) | rfl
  · have hle := Nat.le_trans hlow h.2
    revert hle
    decide
  · have hle := Nat.le_trans hlow h.2
    revert hle
    decide
  · revert h
    decide

theorem toDigits_injective {m n : Nat} (h : Nat.toDigits 10 m = Nat.toDigits 10 n) : m = n := by
  simpa only [Nat.ofDigitChars_ten_toDigits] using congrArg (Nat.ofDigitChars 10 · 0) h

theorem isDigit_of_mem_toDigits {n : Nat} {d : Char} (h : d ∈ Nat.toDigits 10 n) : isDigit d := by
  have hdigit := Nat.isDigit_of_mem_toDigits (by decide) (by decide) h
  simpa [Char.isDigit, isDigit, Char.le_def] using hdigit

theorem isWordChar_of_mem_builtin {name : String} (h : isBuiltin name) :
    ∃ rest, name.toList = '@' :: rest ∧ ∀ c ∈ rest, isWordChar c := by
  unfold isBuiltin at h
  split at h
  case h_1 c rest hlist =>
    refine ⟨c :: rest, hlist, ?_⟩
    simp only [Bool.and_eq_true, List.all_eq_true] at h
    intro d hd
    rcases List.mem_cons.1 hd with rfl | hd
    · have hfirst := h.1
      simp only [isWordChar, Bool.or_eq_true] at hfirst ⊢
      tauto
    · exact h.2 d hd
  case h_2 => simp at h

end Text

/-- What a reference shows in the text: a builtin itself, any other name its number. -/
inductive Mark
  | builtin (name : String) (isBuiltin : Text.isBuiltin name)
  | number (i : Nat)

namespace Mark

def text : Mark → List Char
  | builtin name _ => name.toList
  | number i => 'C' :: Nat.toDigits 10 i

theorem text_cases (m : Mark) : ∃ c rest, m.text = c :: rest ∧ (c = '@' ∨ c = 'C') ∧
    ∀ d ∈ rest, Text.isWordChar d := by
  cases m with
  | builtin name h =>
    obtain ⟨rest, hrest, hword⟩ := Text.isWordChar_of_mem_builtin h
    exact ⟨'@', rest, hrest, .inl rfl, hword⟩
  | number i =>
    refine ⟨'C', _, rfl, .inr rfl, fun d hd => ?_⟩
    simp [Text.isWordChar, Text.isDigit_of_mem_toDigits hd]

theorem text_injective {m m' : Mark} (h : m.text = m'.text) : m = m' := by
  cases m with
  | builtin name hb =>
    obtain ⟨rest, hrest, -⟩ := Text.isWordChar_of_mem_builtin hb
    cases m' with
    | builtin name' hb' =>
      obtain rfl : name = name' := String.toList_injective h
      rfl
    | number i' => simp [text, hrest] at h
  | number i =>
    cases m' with
    | builtin name' hb' =>
      obtain ⟨rest, hrest, -⟩ := Text.isWordChar_of_mem_builtin hb'
      simp [text, hrest] at h
    | number i' =>
      rw [Text.toDigits_injective (List.cons.inj h).2]

/-- A mark ends before the first character that no word has. -/
theorem text_append_inj {m m' : Mark} {stop : Char} {r q : List Char}
    (hstop : ¬Text.isWordChar stop) (hat : stop ≠ '@')
    (h : m.text ++ stop :: r = m'.text ++ stop :: q) : m = m' ∧ r = q := by
  have hfree (m : Mark) : stop ∉ m.text := by
    obtain ⟨c, rest, htext, hc, hword⟩ := m.text_cases
    rw [htext, List.mem_cons]
    rintro (rfl | hmem)
    · rcases hc with rfl | rfl
      · exact hat rfl
      · exact hstop (by decide)
    · exact hstop (hword stop hmem)
  obtain ⟨htext, hrest⟩ := append_stop_inj (hfree m) (hfree m') h
  exact ⟨text_injective htext, hrest⟩

end Mark

def itemText (item : String × Mark) : List Char :=
  item.2.text ++ (Text.quoteData item.1).toList

def itemsText : List (String × Mark) → List Char
  | [] => []
  | [item] => itemText item
  | item :: next :: rest => itemText item ++ ',' :: itemsText (next :: rest)

theorem itemsText_cons (item : String × Mark) (items : List (String × Mark)) :
    itemsText (item :: items) =
      itemText item ++ (if items = [] then [] else ',' :: itemsText items) := by
  cases items <;> simp [itemsText]

/-- The characters that close a list of fields. -/
def Closes (stop : Char) : Prop := stop = '\x7d' ∨ stop = '>'

theorem itemText_append_inj {e f : String × Mark} {r q : List Char}
    (h : itemText e ++ r = itemText f ++ q) : e = f ∧ r = q := by
  obtain ⟨label, m⟩ := e
  obtain ⟨label', m'⟩ := f
  simp only [itemText, Text.toList_quoteData, List.append_assoc, List.cons_append,
    List.nil_append] at h
  obtain ⟨rfl, htail⟩ := Mark.text_append_inj (by decide) (by decide) h
  obtain ⟨hlabel, rfl⟩ := Text.dataEscape_escapesBy.append_inj (by decide) htail
  rw [String.toList_injective hlabel]
  exact ⟨rfl, rfl⟩

theorem itemText_append_ne (e : String × Mark) {stop : Char} (hstop : Closes stop)
    (r q : List Char) : itemText e ++ r ≠ stop :: q := by
  obtain ⟨c, rest, htext, hc, -⟩ := e.2.text_cases
  simp only [itemText, htext, List.cons_append, ne_eq, List.cons.injEq, not_and]
  rintro rfl
  rcases hc with rfl | rfl <;> simp [Closes] at hstop

theorem itemsText_append_inj {stop : Char} (hstop : Closes stop) {es fs : List (String × Mark)}
    {r q : List Char} (h : itemsText es ++ stop :: r = itemsText fs ++ stop :: q) :
    es = fs ∧ r = q := by
  induction es generalizing fs with
  | nil =>
    cases fs with
    | nil => simpa [itemsText] using h
    | cons f fs =>
      rw [itemsText_cons, List.append_assoc] at h
      exact absurd h.symm (itemText_append_ne f hstop _ _)
  | cons e es ih =>
    cases fs with
    | nil =>
      rw [itemsText_cons, List.append_assoc] at h
      exact absurd h (itemText_append_ne e hstop _ _)
    | cons f fs =>
      have hcomma : stop ≠ ',' := by rcases hstop with rfl | rfl <;> decide
      rw [itemsText_cons, itemsText_cons, List.append_assoc, List.append_assoc] at h
      obtain ⟨rfl, htail⟩ := itemText_append_inj h
      by_cases hes : es = [] <;> by_cases hfs : fs = [] <;>
        simp only [hes, hfs, if_true, if_false, List.nil_append, List.cons_append,
          List.cons.injEq, true_and] at htail
      · rw [hes, hfs]
        exact ⟨rfl, htail⟩
      · exact absurd htail.1 hcomma
      · exact absurd htail.1.symm hcomma
      · obtain ⟨rfl, rfl⟩ := ih htail
        exact ⟨rfl, rfl⟩

def codeText : Code Mark → List Char
  | .product fields => '\x7b' :: (itemsText fields.entries ++ ['\x7d'])
  | .union fields => '<' :: (itemsText fields.entries ++ ['>'])
  | .vector element => '[' :: (element.text ++ [']'])

theorem codeText_append_inj {x y : Code Mark} {r q : List Char}
    (h : codeText x ++ r = codeText y ++ q) : x = y ∧ r = q := by
  cases x <;> cases y <;>
    simp only [codeText, List.cons_append, List.append_assoc, List.nil_append, List.cons.injEq,
      true_and] at h
  case product.product f g =>
    obtain ⟨hentries, hrest⟩ := itemsText_append_inj (.inl rfl) h
    exact ⟨congrArg Code.product (NameMap.entries_injective hentries), hrest⟩
  case union.union f g =>
    obtain ⟨hentries, hrest⟩ := itemsText_append_inj (.inr rfl) h
    exact ⟨congrArg Code.union (NameMap.entries_injective hentries), hrest⟩
  case vector.vector a b =>
    obtain ⟨rfl, hrest⟩ := Mark.text_append_inj (by decide) (by decide) h
    exact ⟨rfl, hrest⟩
  all_goals exact absurd h.1 (by decide)

/-- The text of one definition, `$Ci=code;`. -/
def definitionText (definition : Nat × Code Mark) : List Char :=
  '$' :: ((Mark.number definition.1).text ++ '=' :: (codeText definition.2 ++ [';']))

theorem definitionText_append_inj {d e : Nat × Code Mark} {r q : List Char}
    (h : definitionText d ++ r = definitionText e ++ q) : d = e ∧ r = q := by
  obtain ⟨i, x⟩ := d
  obtain ⟨j, y⟩ := e
  simp only [definitionText, List.cons_append, List.append_assoc, List.nil_append,
    List.cons.injEq, true_and] at h
  obtain ⟨hnumber, htail⟩ := Mark.text_append_inj (by decide) (by decide) h
  obtain ⟨rfl, hend⟩ := codeText_append_inj htail
  cases hnumber
  exact ⟨rfl, (List.cons.inj hend).2⟩

theorem flatMap_definitionText_inj {ds es : List (Nat × Code Mark)}
    (h : ds.flatMap definitionText = es.flatMap definitionText) : ds = es := by
  induction ds generalizing es with
  | nil =>
    cases es with
    | nil => rfl
    | cons e es => simp [definitionText] at h
  | cons d ds ih =>
    cases es with
    | nil => simp [definitionText] at h
    | cons e es =>
      rw [List.flatMap_cons, List.flatMap_cons] at h
      obtain ⟨rfl, hrest⟩ := definitionText_append_inj h
      rw [ih hrest]

namespace Codes

/-- The mark of a reference, given the names in the order of their numbers. -/
def mark (order : List String) (reference : String) : Mark :=
  if h : Text.isBuiltin reference then .builtin reference h else .number (order.idxOf reference)

/-- The numbered codes that the text lists. -/
def definitions (codes : Codes) (order : List String) : List (Nat × Code Mark) :=
  order.map fun name => (order.idxOf name, (codes.getD name .unit).map (mark order))

theorem toString_string (s : String) : toString s = s := rfl

theorem toList_token (order : List String) (r : String) :
    (token order r).toList = (mark order r).text := by
  unfold token mark
  split_ifs
  · rfl
  · simp [toString_string, Mark.text]

theorem toList_encodeFields (order : List String) (fields : NameMap String) :
    (encodeFields order fields).toList = itemsText (fields.map (mark order)).entries := by
  have hitem (e : String × String) : (token order e.2 ++ Text.quoteData e.1).toList =
      itemText (e.1, mark order e.2) := by
    rw [String.toList_append, toList_token, itemText]
  simp only [encodeFields, NameMap.map, String.toList_intercalate, List.map_map,
    Function.comp_def, hitem]
  generalize fields.entries = es
  induction es with
  | nil => rfl
  | cons e es ih =>
    cases es with
    | nil => simp [itemsText]
    | cons f es =>
      rw [List.map_cons] at ih
      rw [List.map_cons, List.map_cons, List.intercalate_cons_cons, ih]
      simp [itemsText]

theorem toList_encodeCode (order : List String) (code : Code String) :
    (encodeCode order code).toList = codeText (code.map (mark order)) := by
  cases code <;> simp [encodeCode, codeText, Code.map, toList_encodeFields, toList_token]

theorem toList_encodeDefinition (codes : Codes) (order : List String) (name : String) :
    (codes.encodeDefinition order name).toList =
      definitionText (order.idxOf name, (codes.getD name .unit).map (mark order)) := by
  simp [encodeDefinition, definitionText, toList_encodeCode, toString_string, Mark.text]

/-- Texts are equal exactly if the numbered codes in them are. -/
theorem text_eq_iff {c d : Codes} {o p : List String} :
    String.join (o.map (c.encodeDefinition o)) = String.join (p.map (d.encodeDefinition p)) ↔
      c.definitions o = d.definitions p := by
  have htext (c : Codes) (o : List String) : (String.join (o.map (c.encodeDefinition o))).toList =
      (c.definitions o).flatMap definitionText := by
    simp [String.toList_join, definitions, List.flatMap_map, toList_encodeDefinition]
  rw [← String.toList_inj, htext, htext]
  exact ⟨flatMap_definitionText_inj, fun h => by rw [h]⟩

end Codes

end StructuralTyping
