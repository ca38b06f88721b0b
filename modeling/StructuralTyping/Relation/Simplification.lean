import StructuralTyping.Relation.Basic

/-!
# Simplification

Codes and filters only restrict what flows through a relation, they do not change it. Simplification
drops them from compositions and puts the identity in their place elsewhere.
-/
namespace StructuralTyping.Relation

def isIdentity : Relation → Bool
  | identity => true
  | _ => false

/-- The composition of relations none of which is the identity. -/
def compose : List Relation → Relation
  | [] => identity
  | [r] => r
  | rs => comp rs

mutual

def simplify : Relation → Relation
  | product fields => product (simplifyFields fields)
  | union rs => union (simplifyList rs)
  | vector rs => vector (simplifyList rs)
  | comp rs => compose ((simplifyList rs).filter (!isIdentity ·))
  | code _ | filter _ => identity
  | leaf => leaf

def simplifyList : List Relation → List Relation
  | [] => []
  | r :: rs => simplify r :: simplifyList rs

def simplifyFields : List (String × Relation) → List (String × Relation)
  | [] => []
  | (label, r) :: fields => (label, simplify r) :: simplifyFields fields

end

end StructuralTyping.Relation
