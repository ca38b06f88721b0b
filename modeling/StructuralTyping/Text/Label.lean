/-!
# Names and labels

Builtin names have the form `@identifier`. A label is written plain if it looks like a word, and
quoted otherwise, so that distinct labels are written differently. Vector members are addressed by
numbers.
-/
namespace StructuralTyping.Text

def isDigit (c : Char) : Bool := '0' ≤ c && c ≤ '9'

def isLetter (c : Char) : Bool := ('a' ≤ c && c ≤ 'z') || ('A' ≤ c && c ≤ 'Z')

def isWordChar (c : Char) : Bool := isLetter c || isDigit c || c == '_'

def isBuiltin (name : String) : Bool :=
  match name.toList with
  | '@' :: c :: rest => (isLetter c || c == '_') && rest.all isWordChar
  | _ => false

/-- The local name of the empty product. -/
def unitName : String := "\x7b\x7d"

/-- The label of the edge from a vector to its members. -/
def vectorMember : String := "vector-member"

def isMemberLabel (label : String) : Bool :=
  label == vectorMember || (!label.isEmpty && label.toList.all isDigit)

def isPlainLabel (label : String) : Bool :=
  match label.toList with
  | [] => false
  | c :: rest => isWordChar c && rest.all fun d => isWordChar d || d == '?' || d == '!'

def escapeQuote : List Char → List Char
  | [] => []
  | c :: rest =>
    if c = '\\' ∨ c = '\'' then '\\' :: c :: escapeQuote rest else c :: escapeQuote rest

/-- The written form of a label. -/
def labelText (label : String) : String :=
  if isPlainLabel label then label
  else .ofList ('\'' :: escapeQuote label.toList ++ ['\''])

end StructuralTyping.Text
