import Mathlib.Data.Nat.Digits.Lemmas
import StructuralTyping.Pattern.Promotion
import StructuralTyping.Proofs.UniqueReadability
import StructuralTyping.Text.ContentHash

/-!
# What a hash says

The units of a text are the coefficients of a polynomial. A hash spells, in base 36 and with letters
only, the value of this polynomial at 31, reduced by the modulus. Each letter stands for one digit,
so hashes are equal exactly if the reduced values are, and a hash is no longer than the modulus. No
name of another kind consists of such letters. Main statement: `contentHash_exact`.
-/
namespace StructuralTyping

theorem PatternGraph.toList_localName (id : Nat) :
    (localName id).toList = ':' :: 'P' :: Nat.toDigits 10 id := by
  have hstart : (toString ":P").toList = [':', 'P'] := rfl
  simp [localName, hstart]

namespace Text
open ContentHash
variable {text name : String} {c : Char} {units low : List Nat} {fuel n d u : Nat}

section Units

/-- A character of the basic plane is one unit. Any other is a pair of surrogates, which have ten
bits of it each. -/
theorem units16_cases (c : Char) : c.toNat < 2 ^ 16 ∧ units16 c = [c.toNat] ∨
    ∃ high < 2 ^ 10, ∃ low < 2 ^ 10, c.toNat = 2 ^ 16 + high * 2 ^ 10 + low ∧
      units16 c = [0xD800 + high, 0xDC00 + low] := by
  by_cases hbasic : c.toNat < 0x10000
  · exact .inl ⟨hbasic, by simp [units16, hbasic]⟩
  · have hlt : c.toNat < 0x110000 := c.valid.elim (fun h => h.trans (by decide)) And.right
    refine .inr ⟨(c.toNat - 0x10000) / 0x400, by omega, (c.toNat - 0x10000) % 0x400, by omega,
      by omega, by simp [units16, hbasic]⟩

theorem lt_of_mem_units16 (h : u ∈ units16 c) : u < 2 ^ 16 := by
  rcases units16_cases c with ⟨hlt, hunits⟩ | ⟨high, hhigh, low, hlow, -, hunits⟩
  · rw [hunits, List.mem_singleton] at h
    exact h ▸ hlt
  · simp only [hunits, List.mem_cons, List.not_mem_nil, or_false] at h
    omega

end Units

section Contents

/-- The text is a lone definition on one line, and this is its body. -/
def Frames (text body : List Char) : Prop :=
  text = "$C0=".toList ++ body ++ [';'] ∧ ∀ c ∈ body, ¬isLineBreak c

/-- The body of a lone definition on one line, or else the whole text. -/
def Unwraps (text body : List Char) : Prop :=
  Frames text body ∨ body = text ∧ ∀ other, ¬Frames text other

theorem content_of_frames {text body : List Char} (h : Frames text body) : content text = body := by
  obtain ⟨rfl, hline⟩ := h
  have hfree : ¬body.any isLineBreak := by simpa using hline
  simp [content, hfree]

theorem content_of_not_frames {text : List Char} (h : ∀ body, ¬Frames text body) :
    content text = text := by
  unfold content
  split
  case h_1 rest =>
    split_ifs with hbody
    · have hrest := List.dropLast_append_getLast? ';' hbody.1
      refine absurd ⟨?_, ?_⟩ (h rest.dropLast)
      · conv_lhs => rw [← hrest]
        rfl
      · simpa using hbody.2
    · rfl
  case h_2 => rfl

theorem unwraps_content (text : List Char) : Unwraps text (content text) := by
  by_cases h : ∃ body, Frames text body
  · obtain ⟨body, hbody⟩ := h
    exact .inl (content_of_frames hbody ▸ hbody)
  · rw [not_exists] at h
    exact .inr ⟨content_of_not_frames h, h⟩

end Contents

section Residues

theorem residue_append (units : List Nat) (u : Nat) :
    residue (units ++ [u]) = (residue units * multiplier + u) % modulus := by
  simp [residue]

/-- Reducing after every unit is as good as reducing the value of the polynomial once. -/
theorem residue_eq (units : List Nat) :
    residue units = Nat.ofDigits multiplier units.reverse % modulus := by
  induction units using List.reverseRecOn with
  | nil => rfl
  | append_singleton units u ih =>
    have hreduced : residue units * multiplier + u ≡
        Nat.ofDigits multiplier units.reverse * multiplier + u [MOD modulus] := by
      rw [ih]
      exact ((Nat.mod_modEq _ _).mul_right _).add_right _
    rw [residue_append, hreduced, List.reverse_append, List.reverse_singleton,
      List.singleton_append, Nat.ofDigits_cons, mul_comm, add_comm]

theorem residue_lt (units : List Nat) : residue units < modulus := by
  rw [residue_eq]
  exact Nat.mod_lt _ (by decide)

/-- No unit makes the sum too large that is reduced for it. -/
theorem residue_step_lt (units : List Nat) (hu : u < 2 ^ 16) :
    residue units * multiplier + u < 2 ^ 60 := by
  have hlt := residue_lt units
  simp only [modulus, multiplier] at hlt ⊢
  omega

end Residues

section Digits

theorem digits36_eq (h : n < fuel) :
    digits36 fuel n low = (if n = 0 then [0] else (Nat.digits 36 n).reverse) ++ low := by
  induction fuel generalizing n low with
  | zero => cases h
  | succ fuel ih =>
    rw [digits36]
    split_ifs with hlt hzero hzero
    · rw [hzero, List.singleton_append]
    · rw [Nat.digits_of_lt 36 n hzero hlt, List.reverse_singleton, List.singleton_append]
    · omega
    · have hpos : 0 < n := Nat.pos_of_ne_zero hzero
      rw [ih (by omega), if_neg (by omega), Nat.digits_def' (by decide) hpos, List.reverse_cons,
        List.append_assoc, List.singleton_append]

theorem ofDigits_digits36 (n : Nat) : Nat.ofDigits 36 (digits36 (n + 1) n []).reverse = n := by
  rw [digits36_eq (Nat.lt_succ_self n), List.append_nil]
  split_ifs with hzero
  · rw [hzero]
    rfl
  · rw [List.reverse_reverse, Nat.ofDigits_digits]

theorem lt_of_mem_digits36 (h : d ∈ digits36 (n + 1) n []) : d < 36 := by
  rw [digits36_eq (Nat.lt_succ_self n), List.append_nil] at h
  split_ifs at h with hzero
  · rw [List.mem_singleton.1 h]
    decide
  · exact Nat.digits_lt_base (by decide) (List.mem_reverse.1 h)

theorem digits36_ne_nil (n : Nat) : digits36 (n + 1) n [] ≠ [] := by
  rw [digits36_eq (Nat.lt_succ_self n), List.append_nil]
  split_ifs with hzero
  · exact List.cons_ne_nil _ _
  · exact List.reverse_ne_nil_iff.2 (Nat.digits_ne_nil_iff_ne_zero.2 hzero)

theorem length_digits36_le (h : n < 36 ^ 11) : (digits36 (n + 1) n []).length ≤ 11 := by
  rw [digits36_eq (Nat.lt_succ_self n), List.append_nil]
  split_ifs with hzero
  · decide
  · rw [List.length_reverse]
    exact (Nat.digits_length_le_iff (by decide) n).2 h

end Digits

section Letters

/-- The letters that hashes are spelled with. -/
def isHashChar (c : Char) : Bool := ('A' ≤ c && c ≤ 'Z') || ('q' ≤ c && c ≤ 'z')

def isHashText (name : String) : Bool := name.toList.all isHashChar

/-- The digit that a letter stands for. -/
def digitOf (c : Char) : Nat :=
  if c ≤ 'Z' then c.toNat - 'A'.toNat else c.toNat - 'q'.toNat + 26

/-- The number that letters spell in base 36, the most significant first. -/
def spelledNumber (name : String) : Nat := Nat.ofDigits 36 (name.toList.reverse.map digitOf)

theorem isHashChar_spell : d < 36 → isHashChar (spell d) := by
  revert d
  decide

theorem digitOf_spell : d < 36 → digitOf (spell d) = d := by
  revert d
  decide

theorem isLetter_of_isHashChar (h : isHashChar c) : isLetter c := by
  simp only [isHashChar, isLetter, Bool.or_eq_true, Bool.and_eq_true, decide_eq_true_eq] at h ⊢
  rcases h with h | h
  · exact .inr h
  · exact .inl ⟨Char.le_trans (by decide) h.1, h.2⟩

end Letters

section Hashes

/-- The units of what is hashed for a text. -/
def hashedUnits (text : String) : List Nat := (content text.toList).flatMap units16

theorem lt_of_mem_hashedUnits (h : u ∈ hashedUnits text) : u < 2 ^ 16 := by
  obtain ⟨c, -, hu⟩ := List.mem_flatMap.1 h
  exact lt_of_mem_units16 hu

theorem toList_contentHash (text : String) : (contentHash text).toList =
    (digits36 (residue (hashedUnits text) + 1) (residue (hashedUnits text)) []).map spell := by
  rw [contentHash, String.toList_ofList]
  rfl

theorem isHashText_contentHash (text : String) : isHashText (contentHash text) := by
  simp only [isHashText, List.all_eq_true, toList_contentHash, List.mem_map]
  rintro c ⟨d, hd, rfl⟩
  exact isHashChar_spell (lt_of_mem_digits36 hd)

theorem isLetter_of_mem_contentHash (h : c ∈ (contentHash text).toList) : isLetter c :=
  isLetter_of_isHashChar (List.all_eq_true.1 (isHashText_contentHash text) c h)

theorem contentHash_ne_empty (text : String) : contentHash text ≠ "" := by
  intro h
  have hlist := congrArg String.toList h
  rw [toList_contentHash] at hlist
  exact digits36_ne_nil _ (List.map_eq_nil_iff.1 hlist)

theorem length_contentHash_le (text : String) : (contentHash text).length ≤ 11 := by
  rw [← String.length_toList, toList_contentHash, List.length_map]
  exact length_digits36_le ((residue_lt _).trans (by decide))

theorem spelledNumber_contentHash (text : String) :
    spelledNumber (contentHash text) = residue (hashedUnits text) := by
  have hdigits : ((contentHash text).toList.reverse.map digitOf) =
      (digits36 (residue (hashedUnits text) + 1) (residue (hashedUnits text)) []).reverse := by
    rw [toList_contentHash, ← List.map_reverse, List.map_map]
    refine (List.map_congr_left fun d hd => ?_).trans (List.map_id _)
    exact digitOf_spell (lt_of_mem_digits36 (List.mem_reverse.1 hd))
  rw [spelledNumber, hdigits, ofDigits_digits36]

/-- Hashes are equal exactly if the numbers that they spell are. -/
theorem contentHash_eq_iff {text text' : String} : contentHash text = contentHash text' ↔
    residue (hashedUnits text) = residue (hashedUnits text') := by
  constructor
  · intro h
    rw [← spelledNumber_contentHash, h, spelledNumber_contentHash]
  · intro h
    apply String.toList_injective
    rw [toList_contentHash, toList_contentHash, h]

end Hashes

section OtherNames

theorem not_isHashText_of_mem (hc : c ∈ name.toList) (h : ¬isHashChar c) : ¬isHashText name :=
  fun hall => h (List.all_eq_true.1 hall c hc)

theorem not_isHashText_of_isBuiltin (h : isBuiltin name) : ¬isHashText name := by
  obtain ⟨rest, hrest, -⟩ := isWordChar_of_mem_builtin h
  exact not_isHashText_of_mem (hrest ▸ List.mem_cons_self) (by decide)

theorem not_isHashText_unitName : ¬isHashText unitName := by decide

theorem not_isHashText_localName (id : Nat) : ¬isHashText (PatternGraph.localName id) :=
  not_isHashText_of_mem (PatternGraph.toList_localName id ▸ List.mem_cons_self) (by decide)

/-- What stands for a member of a group in the text that is hashed for a relation of the group. -/
def placeholder (i : Nat) : String := s!"X{i}"

theorem toList_placeholder (i : Nat) : (placeholder i).toList = 'X' :: Nat.toDigits 10 i := by
  simp [placeholder, Codes.toString_string]

theorem not_isHashChar_of_isDigit (h : isDigit c) : ¬isHashChar c := fun hc =>
  not_isLetter_of_isDigit h (by simp [isLetter_of_isHashChar hc])

/-- A placeholder has a digit, and no hash has. -/
theorem not_isHashText_placeholder (i : Nat) : ¬isHashText (placeholder i) := by
  obtain ⟨d, rest, hdigits⟩ := List.exists_cons_of_ne_nil (Nat.toDigits_ne_nil (n := i) (b := 10))
  have hdigit : isDigit d := isDigit_of_mem_toDigits (hdigits ▸ List.mem_cons_self)
  refine not_isHashText_of_mem ?_ (not_isHashChar_of_isDigit hdigit)
  simp [toList_placeholder, hdigits]

theorem contentHash_not_isBuiltin (text : String) : ¬isBuiltin (contentHash text) := fun h =>
  not_isHashText_of_isBuiltin h (isHashText_contentHash text)

theorem contentHash_ne_unitName (text : String) : contentHash text ≠ unitName := fun h =>
  not_isHashText_unitName (h ▸ isHashText_contentHash text)

end OtherNames

/-- A hash has between one and eleven letters of its own alphabet, so it is no name of another kind.
It spells the value at 31 of the polynomial of the units of the unwrapped text, reduced by the
modulus, and nothing else counts. The sums that are reduced on the way fit into sixty bits. -/
theorem contentHash_exact (s t : String) :
    (contentHash s ≠ "" ∧ (contentHash s).length ≤ 11 ∧ isHashText (contentHash s)) ∧
    (¬isBuiltin (contentHash s) ∧ contentHash s ≠ unitName ∧
      (∀ id, contentHash s ≠ PatternGraph.localName id) ∧ ∀ i, contentHash s ≠ placeholder i) ∧
    (Unwraps s.toList (content s.toList) ∧
      spelledNumber (contentHash s) =
        Nat.ofDigits 31 (hashedUnits s).reverse % 9007199254740881) ∧
    (contentHash s = contentHash t ↔
      Nat.ofDigits 31 (hashedUnits s).reverse % 9007199254740881 =
        Nat.ofDigits 31 (hashedUnits t).reverse % 9007199254740881) ∧
    ∀ before u after, hashedUnits s = before ++ u :: after →
      residue (before ++ [u]) = (residue before * 31 + u) % 9007199254740881 ∧
        residue before * 31 + u < 2 ^ 60 := by
  have hletters := isHashText_contentHash s
  refine ⟨⟨contentHash_ne_empty s, length_contentHash_le s, hletters⟩,
    ⟨contentHash_not_isBuiltin s, contentHash_ne_unitName s, fun id h => ?_, fun i h => ?_⟩,
    ⟨unwraps_content _, ?_⟩, ?_, fun before u after hunits => ⟨residue_append before u, ?_⟩⟩
  · exact not_isHashText_localName id (h ▸ hletters)
  · exact not_isHashText_placeholder i (h ▸ hletters)
  · rw [spelledNumber_contentHash, residue_eq]
    rfl
  · rw [contentHash_eq_iff, residue_eq, residue_eq]
    rfl
  · have hu : u ∈ hashedUnits s := by simp [hunits]
    exact residue_step_lt before (lt_of_mem_hashedUnits hu)

/-- The definition of the empty product is hashed like its body. -/
theorem contentHash_exact_unit : contentHash "$C0=\x7b\x7d;" = "DBO" ∧
    contentHash "$C0=\x7b\x7d;" = contentHash "\x7b\x7d" ∧
    spelledNumber "DBO" = (123 * 31 + 125) % 9007199254740881 ∧
    hashedUnits "$C0=\x7b\x7d;" = [123] ++ 125 :: [] ∧ residue [123] * 31 + 125 < 2 ^ 60 := by
  have hname : contentHash "$C0=\x7b\x7d;" = "DBO" := by decide +kernel
  have hunits : hashedUnits "$C0=\x7b\x7d;" = [123] ++ 125 :: [] := by decide +kernel
  have hunits' : hashedUnits "\x7b\x7d" = [123] ++ 125 :: [] := by decide +kernel
  obtain ⟨-, -, ⟨-, hspelled⟩, hiff, hsteps⟩ :=
    contentHash_exact "$C0=\x7b\x7d;" "\x7b\x7d"
  refine ⟨hname, hiff.2 (by rw [hunits, hunits']), ?_, hunits, (hsteps _ _ _ hunits).2⟩
  rw [← hname, hspelled, hunits]
  rfl

end Text

end StructuralTyping
