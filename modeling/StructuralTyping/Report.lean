import StructuralTyping.Code.Error
import StructuralTyping.Text.Layout

/-!
# Error reports

A report shows the number of the error, its message and, if there is one, what helps against it. A
text of several lines is indented.
-/
namespace StructuralTyping

namespace Report
open Text

def tinted (colours : Bool) (colour : Nat) (text : String) : String :=
  if colours then escape colour ++ text ++ escape 0 else text

/-- The text without the spaces at its end. -/
def trimEnd (text : List Char) : List Char := (text.reverse.dropWhile (· = ' ')).reverse

def linesOf : List Char → List (List Char)
  | [] => [[]]
  | c :: rest => match c, linesOf rest with
    | '\n', lines => [] :: lines
    | c, line :: lines => (c :: line) :: lines
    | c, [] => [[c]]

/-- The lines of a text, the first and the others after different indents. -/
def indented (first others : String) (text : String) : String :=
  let lines := (linesOf text.toList).map fun line => String.ofList (trimEnd line)
  first ++ ("\n" ++ others).intercalate lines ++ "\n"

def render (colours : Bool) (d : Diagnostic) : String :=
  tinted colours 31 d.number ++ "\n\n" ++
    indented ("  " ++ tinted colours 31 "×" ++ " ") ("  " ++ tinted colours 31 "│" ++ " ")
      d.message ++
    match d.help with
    | some help => indented (tinted colours 36 "  help: ") "        " help
    | none => ""

/-- The reports one after the other, with an empty line between any two. -/
def renderAll (colours : Bool) (ds : List Diagnostic) : String :=
  "\n".intercalate (ds.map (render colours))

end Report

end StructuralTyping
