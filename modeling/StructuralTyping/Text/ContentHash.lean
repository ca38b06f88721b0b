/-!
# Content hashes

The hash of a text is a polynomial over its UTF-16 units, reduced modulo a fixed number, written in
base 36 and then spelled with letters only. A text that is a single definition is hashed without its
frame, so that it has the hash of its body.
-/
namespace StructuralTyping.Text

/-- The UTF-16 units of a character: a surrogate pair above the basic plane. -/
def units16 (c : Char) : List Nat :=
  let n := c.toNat
  if n < 0x10000 then [n] else [0xD800 + (n - 0x10000) / 0x400, 0xDC00 + (n - 0x10000) % 0x400]

namespace ContentHash

def multiplier : Nat := 31

def modulus : Nat := 9007199254740881

def residue (units : List Nat) : Nat :=
  units.foldl (fun acc unit => (acc * multiplier + unit) % modulus) 0

def isLineBreak (c : Char) : Bool := c ∈ ['\n', '\r', '\u2028', '\u2029']

/-- The body of a lone definition `$C0=body;` on one line, and any other text itself. -/
def content (text : List Char) : List Char :=
  match text with
  | '$' :: 'C' :: '0' :: '=' :: rest =>
    if rest.getLast? = some ';' ∧ !rest.dropLast.any isLineBreak then rest.dropLast else text
  | _ => text

/-- The digits of `n` in base 36, the most significant first, before those in `low`. -/
def digits36 : Nat → Nat → List Nat → List Nat
  | 0, _, low => low
  | fuel + 1, n, low =>
    if n < 36 then n :: low else digits36 fuel (n / 36) (n % 36 :: low)

/-- Digits are spelled `A` to `Z`, then `q` to `z`. -/
def spell (digit : Nat) : Char :=
  if digit < 26 then .ofNat ('A'.toNat + digit) else .ofNat ('q'.toNat + (digit - 26))

end ContentHash

open ContentHash in
def contentHash (text : String) : String :=
  let value := residue ((content text.toList).flatMap units16)
  .ofList ((digits36 (value + 1) value []).map spell)

end StructuralTyping.Text
