import StructuralTyping.NameMap
import StructuralTyping.Relation.Filter

/-!
# Relations

A relation is built from named relations, projections, tests and literals by composition and by
three ways of collecting several relations of one input. Main statement: `occurrences_mapRefs`.
-/
namespace StructuralTyping

inductive Literal
  | int (value : Int64)
  | str (value : String)
  | bool (value : Bool)
deriving DecidableEq

inductive Relation
  /-- Fields of a product; a single field makes a value of a union. -/
  | product (fields : List (String × Relation))
  | union (alternatives : List Relation)
  | vector (elements : List Relation)
  | comp (items : List Relation)
  | ref (name : String)
  | dot (label : String)
  | filter (filter : Filter)
  | code (name : String)
  | identity
  | literal (value : Literal)

/-- Definitions of relations under names. -/
abbrev Relations := NameMap Relation

namespace Relation

mutual

def decEq : (r s : Relation) → Decidable (r = s)
  | product fs, product gs =>
    match decEqFields fs gs with
    | .isTrue h => .isTrue (by rw [h])
    | .isFalse h => .isFalse (by simpa using h)
  | union rs, union ss | vector rs, vector ss | comp rs, comp ss =>
    match decEqList rs ss with
    | .isTrue h => .isTrue (by rw [h])
    | .isFalse h => .isFalse (by simpa using h)
  | ref a, ref b | dot a, dot b | code a, code b => decidable_of_iff (a = b) (by simp)
  | filter f, filter g => decidable_of_iff (f = g) (by simp)
  | identity, identity => .isTrue rfl
  | literal a, literal b => decidable_of_iff (a = b) (by simp)
  | product _, union _ | product _, vector _ | product _, comp _ | product _, ref _
  | product _, dot _ | product _, filter _ | product _, code _ | product _, identity
  | product _, literal _ => .isFalse (by simp)
  | union _, product _ | union _, vector _ | union _, comp _ | union _, ref _ | union _, dot _
  | union _, filter _ | union _, code _ | union _, identity | union _, literal _ =>
    .isFalse (by simp)
  | vector _, product _ | vector _, union _ | vector _, comp _ | vector _, ref _
  | vector _, dot _ | vector _, filter _ | vector _, code _ | vector _, identity
  | vector _, literal _ => .isFalse (by simp)
  | comp _, product _ | comp _, union _ | comp _, vector _ | comp _, ref _ | comp _, dot _
  | comp _, filter _ | comp _, code _ | comp _, identity | comp _, literal _ => .isFalse (by simp)
  | ref _, product _ | ref _, union _ | ref _, vector _ | ref _, comp _ | ref _, dot _
  | ref _, filter _ | ref _, code _ | ref _, identity | ref _, literal _ => .isFalse (by simp)
  | dot _, product _ | dot _, union _ | dot _, vector _ | dot _, comp _ | dot _, ref _
  | dot _, filter _ | dot _, code _ | dot _, identity | dot _, literal _ => .isFalse (by simp)
  | filter _, product _ | filter _, union _ | filter _, vector _ | filter _, comp _
  | filter _, ref _ | filter _, dot _ | filter _, code _ | filter _, identity
  | filter _, literal _ => .isFalse (by simp)
  | code _, product _ | code _, union _ | code _, vector _ | code _, comp _ | code _, ref _
  | code _, dot _ | code _, filter _ | code _, identity | code _, literal _ => .isFalse (by simp)
  | identity, product _ | identity, union _ | identity, vector _ | identity, comp _
  | identity, ref _ | identity, dot _ | identity, filter _ | identity, code _
  | identity, literal _ => .isFalse (by simp)
  | literal _, product _ | literal _, union _ | literal _, vector _ | literal _, comp _
  | literal _, ref _ | literal _, dot _ | literal _, filter _ | literal _, code _
  | literal _, identity => .isFalse (by simp)

def decEqList : (rs ss : List Relation) → Decidable (rs = ss)
  | [], [] => .isTrue rfl
  | [], _ :: _ => .isFalse (by simp)
  | _ :: _, [] => .isFalse (by simp)
  | r :: rs, s :: ss =>
    match decEq r s, decEqList rs ss with
    | .isTrue h, .isTrue h' => .isTrue (by rw [h, h'])
    | .isFalse h, _ => .isFalse (by simp [h])
    | _, .isFalse h => .isFalse (by simp [h])

def decEqFields : (fs gs : List (String × Relation)) → Decidable (fs = gs)
  | [], [] => .isTrue rfl
  | [], _ :: _ => .isFalse (by simp)
  | _ :: _, [] => .isFalse (by simp)
  | (k, r) :: fs, (l, s) :: gs =>
    match decEq r s, decEqFields fs gs with
    | .isTrue h, .isTrue h' => decidable_of_iff (k = l) (by simp [h, h'])
    | .isFalse h, _ => .isFalse (by simp [h])
    | _, .isFalse h => .isFalse (by simp [h])

end

instance : DecidableEq Relation := decEq

def tag : Relation → String
  | product _ => "product"
  | union _ => "union"
  | vector _ => "vector"
  | comp _ => "comp"
  | ref _ => "ref"
  | dot _ => "dot"
  | filter _ => "filter"
  | code _ => "code"
  | identity => "identity"
  | literal _ => "literal"

/-- The direct subrelations, in source order. -/
def children : Relation → List Relation
  | product fields => fields.map (·.2)
  | union rs | vector rs | comp rs => rs
  | _ => []

inductive Visit
  | enter (node : Relation)
  | leave (node : Relation)

mutual

/-- A walk enters a node before its children and leaves it after them. -/
def walk : Relation → List Visit
  | product fields => .enter (product fields) :: walkFields fields ++ [.leave (product fields)]
  | union rs => .enter (union rs) :: walkList rs ++ [.leave (union rs)]
  | vector rs => .enter (vector rs) :: walkList rs ++ [.leave (vector rs)]
  | comp rs => .enter (comp rs) :: walkList rs ++ [.leave (comp rs)]
  | leaf => [.enter leaf, .leave leaf]

def walkList : List Relation → List Visit
  | [] => []
  | r :: rs => walk r ++ walkList rs

def walkFields : List (String × Relation) → List Visit
  | [] => []
  | (_, r) :: fields => walk r ++ walkFields fields

end

mutual

/-- The number of nodes. -/
def size : Relation → Nat
  | product fields => 1 + sizeFields fields
  | union rs | vector rs | comp rs => 1 + sizeList rs
  | _ => 1

def sizeList : List Relation → Nat
  | [] => 0
  | r :: rs => size r + sizeList rs

def sizeFields : List (String × Relation) → Nat
  | [] => 0
  | (_, r) :: fields => size r + sizeFields fields

end

mutual

/-- The names that are referred to, in source order, one for each reference. -/
def occurrences : Relation → List String
  | product fields => occurrencesFields fields
  | union rs | vector rs | comp rs => occurrencesList rs
  | ref name => [name]
  | _ => []

def occurrencesList : List Relation → List String
  | [] => []
  | r :: rs => occurrences r ++ occurrencesList rs

def occurrencesFields : List (String × Relation) → List String
  | [] => []
  | (_, r) :: fields => occurrences r ++ occurrencesFields fields

end

/-- The set of names that are referred to. -/
def references (r : Relation) : NameSet := .ofList r.occurrences

mutual

def mapRefs (f : String → String) : Relation → Relation
  | product fields => product (mapRefsFields f fields)
  | union rs => union (mapRefsList f rs)
  | vector rs => vector (mapRefsList f rs)
  | comp rs => comp (mapRefsList f rs)
  | ref name => ref (f name)
  | leaf => leaf

def mapRefsList (f : String → String) : List Relation → List Relation
  | [] => []
  | r :: rs => mapRefs f r :: mapRefsList f rs

def mapRefsFields (f : String → String) : List (String × Relation) → List (String × Relation)
  | [] => []
  | (label, r) :: fields => (label, mapRefs f r) :: mapRefsFields f fields

end

mutual

theorem occurrences_mapRefs (f : String → String) :
    (r : Relation) → (r.mapRefs f).occurrences = r.occurrences.map f
  | product fields => by simpa [mapRefs, occurrences] using occurrencesFields_mapRefs f fields
  | union rs => by simpa [mapRefs, occurrences] using occurrencesList_mapRefs f rs
  | vector rs => by simpa [mapRefs, occurrences] using occurrencesList_mapRefs f rs
  | comp rs => by simpa [mapRefs, occurrences] using occurrencesList_mapRefs f rs
  | ref name => by simp [mapRefs, occurrences]
  | dot _ | filter _ | code _ | identity | literal _ => by simp [mapRefs, occurrences]

theorem occurrencesList_mapRefs (f : String → String) :
    (rs : List Relation) → occurrencesList (mapRefsList f rs) = (occurrencesList rs).map f
  | [] => rfl
  | r :: rs => by
    simp [mapRefsList, occurrencesList, occurrences_mapRefs f r, occurrencesList_mapRefs f rs]

theorem occurrencesFields_mapRefs (f : String → String) :
    (fields : List (String × Relation)) →
      occurrencesFields (mapRefsFields f fields) = (occurrencesFields fields).map f
  | [] => rfl
  | (_, r) :: fields => by
    simp [mapRefsFields, occurrencesFields, occurrences_mapRefs f r,
      occurrencesFields_mapRefs f fields]

end

end Relation

end StructuralTyping
