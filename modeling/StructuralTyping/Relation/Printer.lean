import StructuralTyping.Text.Layout
import StructuralTyping.Text.Quoted
import StructuralTyping.Code.Printer
import StructuralTyping.Relation.Basic

/-!
# Printed relations and filters

Relations and filters stand on one line. A composition inside a composition is put in parentheses
unless it has a single item.
-/
namespace StructuralTyping
open Text

def codeWords (name : String) : List Word := [plain "$", typeName name]

def enclose (before : String) (words : List Word) (after : String) : List Word :=
  plain before :: words ++ [plain after]

def FieldsKind.bracket (words : List Word) : FieldsKind → List Word
  | any => enclose "(" words ")"
  | product => enclose "\x7b" words "\x7d"
  | union => enclose "<" words ">"

namespace Filter

mutual

def testWords : Filter → List Word
  | var name => [plain name]
  | code name => codeWords name
  | fields kind fs isOpen =>
    kind.bracket (inline (fieldItems fs ++ if isOpen then [[plain "..."]] else []))
  | vector element => enclose "[" (testWords element) "]"

def fieldItems : List (String × Filter) → List (List Word)
  | [] => []
  | (label, f) :: fs => (testWords f ++ [plain " ", labelWord label]) :: fieldItems fs

end

def words (f : Filter) : List Word := plain "?" :: testWords f

def block (f : Filter) : Block := { lead := f.words }

end Filter

def Literal.word : Literal → Word
  | int n => plain (toString n.toInt)
  | str s => plain (quoteLiteral s)
  | bool true => ⟨.keyword, "true"⟩
  | bool false => ⟨.keyword, "false"⟩

/-- The items on one line, a space between any two. -/
def spaced : List (List Word) → List Word
  | [] => []
  | [item] => item
  | item :: rest => item ++ plain " " :: spaced rest

namespace Relation

mutual

/-- `inner` says that the relation is an item of a composition. -/
def wordsIn (inner : Bool) : Relation → List Word
  | product fields => enclose "\x7b" (inline (fieldWords fields)) "\x7d"
  | union rs => enclose "<" (inline (itemWords false rs)) ">"
  | vector rs => enclose "[" (inline (itemWords false rs)) "]"
  | comp [] => [plain "()"]
  | comp [r] => wordsIn true r
  | comp rs =>
    let items := spaced (itemWords true rs)
    if inner then enclose "(" items ")" else items
  | ref name => [plain name]
  | dot label => [plain ".", labelWord label]
  | filter f => f.words
  | code name => codeWords name
  | identity => [plain "()"]
  | literal l => [l.word]

def itemWords (inner : Bool) : List Relation → List (List Word)
  | [] => []
  | r :: rs => wordsIn inner r :: itemWords inner rs

def fieldWords : List (String × Relation) → List (List Word)
  | [] => []
  | (label, r) :: fields => (wordsIn false r ++ [plain " ", labelWord label]) :: fieldWords fields

end

def words (r : Relation) : List Word := wordsIn false r

def block (r : Relation) : Block := { lead := r.words }

/-- The relation as plain text on one line. -/
def text (r : Relation) : String := renderWords false r.words

end Relation

end StructuralTyping
