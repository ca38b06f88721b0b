import StructuralTyping.Text.Layout
import StructuralTyping.Code.Repository

/-!
# Printed codes
-/
namespace StructuralTyping
open Text

def typeName (name : String) : Word := ⟨.typeName, name⟩

def labelWord (label : String) : Word := ⟨.label, labelText label⟩

namespace Code

def fieldItems (fields : NameMap String) : List (List Word) :=
  fields.entries.map fun (label, r) => [typeName r, plain " ", labelWord label]

def block : Code String → Block
  | product fields => ⟨[plain "\x7b"], fieldItems fields, [plain "\x7d"]⟩
  | union fields => ⟨[plain "<"], fieldItems fields, [plain ">"]⟩
  | vector element => ⟨[plain "[", typeName element, plain "]"], [], []⟩

end Code

namespace Repository

def entryBlock (name : String) (code : Code String) : Block :=
  let b := code.block
  { lead := [plain "$", typeName name, plain " = "] ++ b.lead
    items := b.items
    trail := b.trail ++ [plain ";"] }

/-- The entries in ascending order of their names. -/
def blocks (repo : Repository) : List Block :=
  repo.codes.entries.map fun (name, code) => entryBlock name code

end Repository

end StructuralTyping
