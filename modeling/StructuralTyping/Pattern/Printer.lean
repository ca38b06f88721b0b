import StructuralTyping.Code.Printer
import StructuralTyping.Pattern.Compression

/-!
# Printed patterns

Each node of a compressed graph stands on a line of its own, with edges to the numbers of other
lines.
-/
namespace StructuralTyping
open Text

namespace CompressedGraph

def patternWord (position : Nat) : Word := plain s!"#{position}"

def edgeItems (edges : NameMap Nat) : List (List Word) :=
  edges.entries.map fun (label, target) => [patternWord target, plain " ", labelWord label]

def patternWords (kind : PatternKind) (edges : NameMap Nat) : List Word :=
  let listed (before : String) (items : List (List Word)) (after : String) : List Word :=
    plain before :: inline items ++ [plain after]
  let items := edgeItems edges
  let more := items ++ [[plain "..."]]
  match kind with
  | .unconstrained => listed "(" more ")"
  | .openProduct => listed "\x7b" more "\x7d"
  | .openUnion => listed "<" more ">"
  | .closedUntyped => listed "(" items ")"
  | .closedProduct => listed "\x7b" items "\x7d"
  | .closedUnion => listed "<" items ">"
  | .vector => listed "[" ((edges.get? vectorMember).map fun id => [patternWord id]).toList "]"
  | .bound code => [plain "$", typeName code]

def ruleWords (showRules : Bool) (rule : Option String) : List Word :=
  match rule, showRules with
  | some rule, true => [plain " ", ⟨.comment, "-- " ++ rule⟩]
  | _, _ => []

def lineBlock (showRules : Bool) (position : Nat) (node : PatternNode) (edges : NameMap Nat) :
    Block :=
  { lead := patternWord position :: plain " = " :: patternWords node.kind edges ++ plain ";" ::
      ruleWords showRules node.rule }

def blocks (showRules : Bool) (c : CompressedGraph) : List Block :=
  (c.nodes.zip c.edges).mapIdx fun i (node, edges) => lineBlock showRules i node edges

/-- The lines of the graph. There is never an empty line between them. -/
def print (colours : Bool) (options : PrintOptions) (c : CompressedGraph) : String :=
  renderBlocks colours { options with compact := true } (c.blocks options.showRules)

end CompressedGraph

end StructuralTyping
