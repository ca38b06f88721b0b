import StructuralTyping.Relation.Basic
import StructuralTyping.Text.Span

/-!
# Sites

Every node of a relation has a pattern for its input and one for its output. Patterns are numbered
along a walk: a node's input when the walk enters it and its output when the walk leaves it. So the
ends of a node follow from where its walk starts and from its size.
-/
namespace StructuralTyping

/-- The patterns at the two ends of a node. -/
structure Ends where
  input : Nat
  output : Nat
deriving DecidableEq

/-- A node of a relation with its ends and those of its children. -/
structure Site where
  node : Relation
  ends : Ends
  children : List Ends
  span : Option Text.Span := none

namespace Relation

/-- The ends of a relation whose walk starts at a number. -/
def endsAt (start : Nat) (r : Relation) : Ends := ⟨start, start + 2 * r.size - 1⟩

/-- The ends of relations that are walked one after the other. -/
def endsFrom (start : Nat) : List Relation → List Ends
  | [] => []
  | r :: rs => r.endsAt start :: endsFrom (start + 2 * r.size) rs

def siteAt (start : Nat) (r : Relation) : Site :=
  { node := r, ends := r.endsAt start, children := endsFrom (start + 1) r.children }

mutual

/-- The sites of a relation whose walk starts at a number, parents before children. -/
def sites (start : Nat) : Relation → List Site
  | product fields => siteAt start (product fields) :: sitesFields (start + 1) fields
  | union rs => siteAt start (union rs) :: sitesList (start + 1) rs
  | vector rs => siteAt start (vector rs) :: sitesList (start + 1) rs
  | comp rs => siteAt start (comp rs) :: sitesList (start + 1) rs
  | leaf => [siteAt start leaf]

def sitesList (start : Nat) : List Relation → List Site
  | [] => []
  | r :: rs => sites start r ++ sitesList (start + 2 * r.size) rs

def sitesFields (start : Nat) : List (String × Relation) → List Site
  | [] => []
  | (_, r) :: fields => sites start r ++ sitesFields (start + 2 * r.size) fields

end

end Relation

/-- The places of the nodes of relations, parents before children. -/
abbrev SpanTable := NameMap (List (Option Text.Span))

namespace Relations

/-- The number of ends of all relations. -/
def endCount (rels : Relations) : Nat := rels.values.foldr (fun r n => 2 * r.size + n) 0

/-- The number at which the walk of each relation starts. -/
def startsFrom (start : Nat) : List (String × Relation) → List (String × Nat × Relation)
  | [] => []
  | (name, r) :: rest => (name, start, r) :: startsFrom (start + 2 * r.size) rest

/-- The ends of the definitions. -/
def ends (rels : Relations) : NameMap Ends :=
  .ofList ((startsFrom 0 rels.entries).map fun (name, start, r) => (name, r.endsAt start))

/-- The sites of each relation. -/
def sites (rels : Relations) (spans : SpanTable) : List (String × List Site) :=
  (startsFrom 0 rels.entries).map fun (name, start, r) =>
    let places := (spans.getD name []).toArray
    (name, (r.sites start).mapIdx fun i site => { site with span := places[i]?.join })

/-- The ends of the nodes of each relation, parents before children. -/
def annotations (rels : Relations) : NameMap (List Ends) :=
  .ofList ((rels.sites ∅).map fun (name, sites) => (name, sites.map (·.ends)))

end Relations

end StructuralTyping
