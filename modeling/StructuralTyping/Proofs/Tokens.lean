import Mathlib.Data.List.Forall2
import StructuralTyping.Relation.Printer
import StructuralTyping.Proofs.UniqueReadability

/-!
# Words, labels and literals can be read back

A word ends at the first character that no word has. What is quoted ends at the first quote that is
not escaped, since an escape starts with a backslash and says itself where it ends. A list ends
where no separator follows. So each of them can be read off the start of a longer text.
-/
namespace StructuralTyping.Text
open List (Forall₂)
variable {l k r q : List Char}

section Words

/-- The characters of references, numbers and plain labels. -/
def isTokenChar (c : Char) : Bool := isWordChar c || c == '?' || c == '!' || c == '-'

/-- No word goes on here. -/
def Breaks (rest : List Char) : Prop := ∀ c ∈ rest.head?, ¬isTokenChar c

theorem breaks_nil : Breaks [] := by simp [Breaks]

theorem breaks_cons {c : Char} : Breaks (c :: r) ↔ ¬isTokenChar c := by simp [Breaks]

theorem token_append_inj (hl : ∀ c ∈ l, isTokenChar c) (hk : ∀ c ∈ k, isTokenChar c) (hr : Breaks r)
    (hq : Breaks q) (h : l ++ r = k ++ q) : l = k ∧ r = q := by
  induction l generalizing k with
  | nil =>
    cases k with
    | nil => simpa using h
    | cons d k =>
      obtain rfl : r = d :: (k ++ q) := h
      exact absurd (hk d List.mem_cons_self) (breaks_cons.1 hr)
  | cons c l ih =>
    cases k with
    | nil =>
      obtain rfl : c :: (l ++ r) = q := h
      exact absurd (hl c List.mem_cons_self) (breaks_cons.1 hq)
    | cons d k =>
      simp only [List.mem_cons, forall_eq_or_imp] at hl hk
      obtain ⟨rfl, htail⟩ := List.cons.inj h
      obtain ⟨rfl, rfl⟩ := ih hl.2 hk.2 htail
      exact ⟨rfl, rfl⟩

/-- A word does not start with a character that no word has. -/
theorem token_append_ne {c : Char} (hne : l ≠ []) (hl : ∀ c ∈ l, isTokenChar c)
    (hc : ¬isTokenChar c) : l ++ r ≠ c :: q := by
  obtain ⟨d, rest, rfl⟩ := List.exists_cons_of_ne_nil hne
  intro h
  obtain rfl : d = c := (List.cons.inj h).1
  exact hc (hl d List.mem_cons_self)

end Words

section Quoted

/-- The number that hexadecimal digits stand for. -/
def hexNumber (digits : List Char) : Nat := digits.foldl (fun n d => 16 * n + hexValue d) 0

/-- Read what follows the backslash of a character in a printed literal. -/
def readLiteralEscape : List Char → Option (Char × List Char)
  | 'u' :: '\x7b' :: rest =>
    some (.ofNat (hexNumber (rest.takeWhile (· ≠ '\x7d'))), (rest.dropWhile (· ≠ '\x7d')).tail)
  | 'n' :: rest => some ('\n', rest)
  | 'r' :: rest => some ('\r', rest)
  | 't' :: rest => some ('\t', rest)
  | '0' :: rest => some (.ofNat 0, rest)
  | c :: rest => some (c, rest)
  | [] => none

theorem hexDigit_ne_brace {n : Nat} (h : n < 16) : hexDigit n ≠ '\x7d' := by
  revert h
  revert n
  decide

theorem hexDigits_eq {fuel n : Nat} (h : n < fuel) (low : List Char) :
    ∃ ds, hexDigits fuel n low = ds ++ low ∧ (∀ d ∈ ds, d ≠ '\x7d') ∧ hexNumber ds = n := by
  induction fuel generalizing n low with
  | zero => omega
  | succ fuel ih =>
    rw [hexDigits]
    split_ifs with hn
    · refine ⟨[hexDigit n], rfl, ?_, ?_⟩
      · simpa using hexDigit_ne_brace hn
      · simp [hexNumber, hexValue_hexDigit hn]
    · have hmod : n % 16 < 16 := Nat.mod_lt _ (by decide)
      obtain ⟨ds, heq, hds, hnumber⟩ := ih (n := n / 16) (by omega) (hexDigit (n % 16) :: low)
      refine ⟨ds ++ [hexDigit (n % 16)], by rw [heq, List.append_assoc]; rfl, ?_, ?_⟩
      · intro d hd
        rcases List.mem_append.1 hd with hd | hd
        · exact hds d hd
        · exact List.mem_singleton.1 hd ▸ hexDigit_ne_brace hmod
      · rw [hexNumber, List.foldl_append, ← hexNumber, hnumber]
        simp only [List.foldl_cons, List.foldl_nil, hexValue_hexDigit hmod]
        omega

theorem literalEscape_escapesBy : EscapesBy '"' literalEscape readLiteralEscape := by
  intro c
  by_cases h₁ : c = '"'
  · subst h₁
    exact .inr ⟨['"'], rfl, fun _ => rfl⟩
  by_cases h₂ : c = '\\'
  · subst h₂
    exact .inr ⟨['\\'], rfl, fun _ => rfl⟩
  by_cases h₃ : c = '\n'
  · subst h₃
    exact .inr ⟨['n'], rfl, fun _ => rfl⟩
  by_cases h₄ : c = '\r'
  · subst h₄
    exact .inr ⟨['r'], rfl, fun _ => rfl⟩
  by_cases h₅ : c = '\t'
  · subst h₅
    exact .inr ⟨['t'], rfl, fun _ => rfl⟩
  by_cases h₆ : c.toNat = 0
  · obtain rfl : Char.ofNat 0 = c := by rw [← h₆, Char.ofNat_toNat]
    exact .inr ⟨['0'], rfl, fun _ => rfl⟩
  by_cases h₇ : isShown c
  · refine .inl ⟨h₁, h₂, ?_⟩
    simp only [literalEscape, h₁, h₂, h₃, h₄, h₅, h₆, h₇, if_true, if_false]
  · refine .inr ⟨'u' :: '\x7b' :: hexDigits (c.toNat + 1) c.toNat ['\x7d'], ?_, fun rest => ?_⟩
    · simp only [literalEscape, h₁, h₂, h₃, h₄, h₅, h₆, h₇, if_false, Bool.false_eq_true]
    · obtain ⟨ds, heq, hds, hnumber⟩ := hexDigits_eq (Nat.lt_succ_self c.toNat) ['\x7d']
      have hpos : ∀ d ∈ ds, decide (d ≠ '\x7d') = true := fun d hd => by simpa using hds d hd
      rw [heq]
      simp only [List.cons_append, List.append_assoc, List.nil_append, readLiteralEscape]
      rw [List.takeWhile_append_of_pos hpos, List.dropWhile_append_of_pos hpos]
      simp [hnumber, Char.ofNat_toNat]

def labelEscape (c : Char) : List Char := if c = '\\' ∨ c = '\'' then ['\\', c] else [c]

theorem escapeQuote_eq (cs : List Char) : escapeQuote cs = cs.flatMap labelEscape := by
  induction cs with
  | nil => rfl
  | cons c cs ih =>
    rw [escapeQuote, List.flatMap_cons, labelEscape, ih]
    split_ifs <;> rfl

/-- Read what follows the backslash of a character in a quoted label. -/
def readLabelEscape : List Char → Option (Char × List Char)
  | c :: rest => some (c, rest)
  | [] => none

theorem labelEscape_escapesBy : EscapesBy '\'' labelEscape readLabelEscape := by
  intro c
  by_cases hc : c = '\\' ∨ c = '\''
  · exact .inr ⟨[c], if_pos hc, fun _ => rfl⟩
  · exact .inl ⟨fun h => hc (.inr h), fun h => hc (.inl h), if_neg hc⟩

end Quoted

section Labels

theorem isTokenChar_of_plain {label : String} (h : isPlainLabel label) :
    label.toList ≠ [] ∧ ∀ c ∈ label.toList, isTokenChar c := by
  unfold isPlainLabel at h
  cases hlabel : label.toList with
  | nil => simp [hlabel] at h
  | cons c rest =>
    simp only [hlabel, Bool.and_eq_true, List.all_eq_true, Bool.or_eq_true] at h
    refine ⟨by simp, fun d hd => ?_⟩
    simp only [isTokenChar, Bool.or_eq_true]
    rcases List.mem_cons.1 hd with rfl | hd
    · exact .inl (.inl (.inl h.1))
    · exact .inl (h.2 d hd)

/-- A label is a word or starts with a quote. -/
theorem labelText_cases (label : String) :
    ((labelText label).toList = label.toList ∧ label.toList ≠ [] ∧
      ∀ c ∈ label.toList, isTokenChar c) ∨
    (labelText label).toList = '\'' :: (label.toList.flatMap labelEscape ++ ['\'']) := by
  by_cases h : isPlainLabel label
  · exact .inl ⟨by rw [labelText, if_pos h], isTokenChar_of_plain h⟩
  · refine .inr ?_
    rw [labelText, if_neg h, String.toList_ofList, escapeQuote_eq]
    rfl

theorem labelText_append_inj {label label' : String} (hr : Breaks r) (hq : Breaks q)
    (h : (labelText label).toList ++ r = (labelText label').toList ++ q) :
    label = label' ∧ r = q := by
  rcases labelText_cases label with ⟨htext, hne, htoken⟩ | htext <;>
    rcases labelText_cases label' with ⟨htext', hne', htoken'⟩ | htext' <;>
    rw [htext, htext'] at h
  · obtain ⟨heq, hrest⟩ := token_append_inj htoken htoken' hr hq h
    exact ⟨String.toList_injective heq, hrest⟩
  · exact absurd h (token_append_ne hne htoken (by decide))
  · exact absurd h.symm (token_append_ne hne' htoken' (by decide))
  · simp only [List.cons_append, List.append_assoc, List.nil_append, List.cons.injEq, true_and] at h
    obtain ⟨heq, hrest⟩ := labelEscape_escapesBy.append_inj (by decide) h
    exact ⟨String.toList_injective heq, hrest⟩

end Labels

section Numbers

/-- A letter or `_`, then letters, digits and `_`. -/
def isIdentifier (name : String) : Bool :=
  match name.toList with
  | [] => false
  | c :: rest => (isLetter c || c == '_') && rest.all isWordChar

theorem isTokenChar_of_isDigit {c : Char} (h : isDigit c) : isTokenChar c := by
  simp [isTokenChar, isWordChar, h]

theorem toList_ofNat (n : Nat) : (toString (Int.ofNat n)).toList = Nat.toDigits 10 n :=
  Nat.toList_repr

theorem toList_negSucc (n : Nat) :
    (toString (Int.negSucc n)).toList = '-' :: Nat.toDigits 10 (n + 1) := by
  change ("-" ++ Nat.repr (n + 1)).toList = _
  simp

/-- A number is a word that does not start like an identifier. -/
theorem toString_int_cases (i : Int) : ∃ c rest, (toString i).toList = c :: rest ∧
    ¬(isLetter c || c == '_') ∧ ∀ d ∈ c :: rest, isTokenChar d := by
  cases i with
  | ofNat n =>
    obtain ⟨c, rest, hcons⟩ := List.exists_cons_of_ne_nil (Nat.toDigits_ne_nil (n := n) (b := 10))
    refine ⟨c, rest, (toList_ofNat n).trans hcons, ?_, fun d hd => ?_⟩
    · exact not_isLetter_of_isDigit (isDigit_of_mem_toDigits (hcons ▸ List.mem_cons_self))
    · exact isTokenChar_of_isDigit (isDigit_of_mem_toDigits (hcons ▸ hd))
  | negSucc n =>
    refine ⟨'-', _, toList_negSucc n, by decide, fun d hd => ?_⟩
    rcases List.mem_cons.1 hd with rfl | hd
    · decide
    · exact isTokenChar_of_isDigit (isDigit_of_mem_toDigits hd)

theorem toString_int_injective {i j : Int} (h : (toString i).toList = (toString j).toList) :
    i = j := by
  have hminus (n m : Nat) : '-' :: Nat.toDigits 10 (n + 1) ≠ Nat.toDigits 10 m := by
    intro heq
    have hdigit := isDigit_of_mem_toDigits (heq ▸ List.mem_cons_self)
    revert hdigit
    decide
  cases i with
  | ofNat n =>
    cases j with
    | ofNat m =>
      rw [toList_ofNat, toList_ofNat] at h
      rw [toDigits_injective h]
    | negSucc m =>
      rw [toList_ofNat, toList_negSucc] at h
      exact absurd h.symm (hminus m n)
  | negSucc n =>
    cases j with
    | ofNat m =>
      rw [toList_ofNat, toList_negSucc] at h
      exact absurd h (hminus n m)
    | negSucc m =>
      rw [toList_negSucc, toList_negSucc] at h
      rw [Nat.succ.inj (toDigits_injective (List.cons.inj h).2)]

theorem isIdentifier_cases {name : String} (h : isIdentifier name) : ∃ c rest,
    name.toList = c :: rest ∧ (isLetter c || c == '_') ∧ ∀ d ∈ c :: rest, isTokenChar d := by
  unfold isIdentifier at h
  split at h
  case h_1 => simp at h
  case h_2 c rest hlist =>
    simp only [Bool.and_eq_true, List.all_eq_true] at h
    refine ⟨c, rest, hlist, h.1, fun d hd => ?_⟩
    simp only [isTokenChar, isWordChar, Bool.or_eq_true]
    rcases List.mem_cons.1 hd with rfl | hd
    · have hfirst := h.1
      simp only [Bool.or_eq_true] at hfirst
      tauto
    · have hrest := h.2 d hd
      simp only [isWordChar, Bool.or_eq_true] at hrest
      tauto

end Numbers

section Lists

/-- A list whose elements can be read back can be read back if no separator follows it. -/
theorem intercalate_append_inj {α : Type} {g : α → List Char} {e : α → α → Prop}
    {p : List Char → Prop} {s : Char} {sep : List Char} (hsep : ∀ rest, p (s :: rest))
    {xs ys : List α} (hxs : xs ≠ []) (hys : ys ≠ [])
    (hread : ∀ x ∈ xs, ∀ y ∈ ys, ∀ r q, p r → p q → g x ++ r = g y ++ q →
      e x y ∧ r = q)
    (hr : p r) (hq : p q) (hrs : r.head? ≠ some s) (hqs : q.head? ≠ some s)
    (h : List.intercalate (s :: sep) (xs.map g) ++ r =
      List.intercalate (s :: sep) (ys.map g) ++ q) : Forall₂ e xs ys ∧ r = q := by
  induction xs generalizing ys with
  | nil => exact absurd rfl hxs
  | cons x xs ih =>
    obtain ⟨y, ys, rfl⟩ := List.exists_cons_of_ne_nil hys
    have hfirst := hread x List.mem_cons_self y List.mem_cons_self
    cases xs with
    | nil =>
      cases ys with
      | nil =>
        simp only [List.map_cons, List.map_nil, List.intercalate_singleton] at h
        obtain ⟨hxy, hrest⟩ := hfirst r q hr hq h
        exact ⟨.cons hxy .nil, hrest⟩
      | cons y' ys =>
        simp only [List.map_cons, List.map_nil, List.intercalate_singleton,
          List.intercalate_cons_cons, List.append_assoc, List.cons_append] at h
        obtain ⟨-, rfl⟩ := hfirst _ _ hr (hsep _) h
        exact absurd rfl hrs
    | cons x' xs =>
      cases ys with
      | nil =>
        simp only [List.map_cons, List.map_nil, List.intercalate_singleton,
          List.intercalate_cons_cons, List.append_assoc, List.cons_append] at h
        obtain ⟨-, rfl⟩ := hfirst _ _ (hsep _) hq h
        exact absurd rfl hqs
      | cons y' ys =>
        simp only [List.map_cons, List.intercalate_cons_cons, List.append_assoc,
          List.cons_append] at h
        obtain ⟨hxy, hrest⟩ := hfirst _ _ (hsep _) (hsep _) h
        have hrest' := List.append_cancel_left (List.cons.inj hrest).2
        obtain ⟨htail, hend⟩ := ih (by simp) (by simp)
          (fun x hx y hy => hread x (List.mem_cons_of_mem _ hx) y (List.mem_cons_of_mem _ hy))
          (by simpa only [List.map_cons] using hrest')
        exact ⟨.cons hxy htail, hend⟩

theorem intercalate_ne {α : Type} {g : α → List Char} {sep : List Char} {c : Char} {xs : List α}
    (hxs : xs ≠ []) (h : ∀ x ∈ xs, ∀ r q, g x ++ r ≠ c :: q) :
    List.intercalate sep (xs.map g) ++ r ≠ c :: q := by
  obtain ⟨x, xs, rfl⟩ := List.exists_cons_of_ne_nil hxs
  cases xs with
  | nil =>
    rw [List.map_cons, List.map_nil, List.intercalate_singleton]
    exact h x List.mem_cons_self r q
  | cons x' xs =>
    simp only [List.map_cons, List.intercalate_cons_cons, List.append_assoc]
    exact h x List.mem_cons_self _ q

/-- A list between brackets, also an empty one, can be read back. -/
theorem enclosed_append_inj {α : Type} {g : α → List Char} {e : α → α → Prop}
    {p : List Char → Prop} {s c : Char} {sep : List Char} (hsep : ∀ rest, p (s :: rest))
    (hclose : ∀ rest, p (c :: rest)) (hne : c ≠ s) {xs ys : List α}
    (hxs : ∀ x ∈ xs, ∀ r q, g x ++ r ≠ c :: q) (hys : ∀ y ∈ ys, ∀ r q, g y ++ r ≠ c :: q)
    (hread : ∀ x ∈ xs, ∀ y ∈ ys, ∀ r q, p r → p q → g x ++ r = g y ++ q → e x y ∧ r = q)
    (h : List.intercalate (s :: sep) (xs.map g) ++ c :: r =
      List.intercalate (s :: sep) (ys.map g) ++ c :: q) : Forall₂ e xs ys ∧ r = q := by
  by_cases hx : xs = [] <;> by_cases hy : ys = []
  · subst hx hy
    exact ⟨.nil, (List.cons.inj h).2⟩
  · subst hx
    exact absurd h.symm (intercalate_ne hy hys)
  · subst hy
    exact absurd h (intercalate_ne hx hxs)
  · obtain ⟨hall, hrest⟩ := intercalate_append_inj hsep hx hy hread (hclose r) (hclose q)
      (by simpa using hne) (by simpa using hne) h
    exact ⟨hall, (List.cons.inj hrest).2⟩

end Lists

end StructuralTyping.Text
