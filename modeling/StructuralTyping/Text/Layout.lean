import StructuralTyping.Text.Grapheme

/-!
# Layout of printed values

Printed values are blocks, one after the other. A block is a line of words with one list of items in
it. The items stand on the line if the whole block fits the width, and on lines of their own
otherwise. Words can be coloured by what they denote; colours take no columns.
-/
namespace StructuralTyping.Text

inductive Style
  | plain | typeName | label | keyword | comment
deriving DecidableEq

structure Word where
  style : Style
  text : String
deriving DecidableEq

/-- A line of words, broken at the items between `lead` and `trail` if it is too long. -/
structure Block where
  lead : List Word
  items : List (List Word) := []
  trail : List Word := []
deriving DecidableEq

structure PrintOptions where
  width : Nat := 100
  indent : Int := 4
  /-- No empty line between the blocks. -/
  compact : Bool := true
  /-- Print the rule that created a pattern beside it. -/
  showRules : Bool := false

namespace PrintOptions

/-- Wide enough for any value to stand on one line. -/
def flat : PrintOptions := { width := 16777216 }

end PrintOptions

def plain (text : String) : Word := ⟨.plain, text⟩

def Style.colour : Style → Option Nat
  | plain => none
  | typeName => some 31
  | label => some 32
  | keyword => some 35
  | comment => some 36

def escape (parameter : Nat) : String := s!"\x1b[{parameter}m"

def Word.render (colours : Bool) (w : Word) : String :=
  match w.style.colour, colours with
  | some colour, true => escape 0 ++ escape colour ++ w.text ++ escape 0
  | _, _ => w.text

def renderWords (colours : Bool) (words : List Word) : String :=
  .join (words.map (·.render colours))

def width (words : List Word) : Nat := words.foldr (fun w n => displayWidth w.text + n) 0

/-- The items on one line, a comma and a space between any two. -/
def inline : List (List Word) → List Word
  | [] => []
  | [item] => item
  | item :: rest => item ++ plain ", " :: inline rest

namespace Block

def flatWords (b : Block) : List Word := b.lead ++ inline b.items ++ b.trail

def render (colours : Bool) (options : PrintOptions) (b : Block) : String :=
  if width b.flatWords ≤ options.width then renderWords colours b.flatWords
  else
    let newline := ",\n".pushn ' ' options.indent.toNat
    renderWords colours b.lead ++ newline.intercalate (b.items.map (renderWords colours)) ++
      renderWords colours b.trail

end Block

/-- The blocks on lines of their own, apart by an empty line unless printing is compact. -/
def renderBlocks (colours : Bool) (options : PrintOptions) (blocks : List Block) : String :=
  (if options.compact then "\n" else "\n\n").intercalate (blocks.map (·.render colours options))

end StructuralTyping.Text
