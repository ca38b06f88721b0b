import StructuralTyping.Text.Shown

/-!
# Quoted text

Two ways to write any text between double quotes. In data, control characters are escaped and all
else stands for itself. In a printed literal, whatever a reader could not see is escaped too.
-/
namespace StructuralTyping.Text

/-- A lowercase hexadecimal digit. -/
def hexDigit (n : Nat) : Char := if n < 10 then .ofNat (48 + n) else .ofNat (87 + n)

/-- The hexadecimal digits of `n`, the most significant first, before those in `low`. -/
def hexDigits : Nat → Nat → List Char → List Char
  | 0, _, low => low
  | fuel + 1, n, low =>
    if n < 16 then hexDigit n :: low else hexDigits fuel (n / 16) (hexDigit (n % 16) :: low)

def quote (escape : Char → List Char) (text : String) : String :=
  .ofList ('"' :: text.toList.flatMap escape ++ ['"'])

def dataEscape (c : Char) : List Char :=
  if c = '"' then ['\\', '"']
  else if c = '\\' then ['\\', '\\']
  else if c = '\n' then ['\\', 'n']
  else if c = '\r' then ['\\', 'r']
  else if c = '\t' then ['\\', 't']
  else if c.toNat = 8 then ['\\', 'b']
  else if c.toNat = 12 then ['\\', 'f']
  else if c.toNat < 32 then
    ['\\', 'u', '0', '0', hexDigit (c.toNat / 16), hexDigit (c.toNat % 16)]
  else [c]

def literalEscape (c : Char) : List Char :=
  if c = '"' then ['\\', '"']
  else if c = '\\' then ['\\', '\\']
  else if c = '\n' then ['\\', 'n']
  else if c = '\r' then ['\\', 'r']
  else if c = '\t' then ['\\', 't']
  else if c.toNat = 0 then ['\\', '0']
  else if isShown c then [c]
  else '\\' :: 'u' :: '\x7b' :: hexDigits (c.toNat + 1) c.toNat ['\x7d']

/-- The text as a string of a data tree. -/
def quoteData : String → String := quote dataEscape

/-- The text as a printed literal. -/
def quoteLiteral : String → String := quote literalEscape

end StructuralTyping.Text
