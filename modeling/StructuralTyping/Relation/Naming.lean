import StructuralTyping.Digraph.Order
import StructuralTyping.Text.ContentHash
import StructuralTyping.Relation.Printer
import StructuralTyping.Relation.Simplification

/-!
# Canonical names of relations

A relation is named by the hash of its printed definition, in which the relations it refers to stand
under their own canonical names. Mutually recursive relations are named together: each is hashed
with placeholders for the members of its group, numbered as they are met, and the hashes of the
whole group go into the name of each member. So names depend neither on local names nor on what
cannot be reached.
-/
namespace StructuralTyping.Relations
open Text

/-- An edge for each defined relation that a definition refers to. -/
def referenceGraph (rels : Relations) : Digraph String :=
  .ofLists rels.keys (rels.entries.flatMap fun (name, r) =>
    (r.references.toList.filter rels.contains).map (name, ·))

/-- The members of the group in the order in which the definition of `name` meets them. -/
def metMembers (group : List String) (names : NameMap String) (name : String) (r : Relation) :
    List String :=
  (name :: r.occurrences.filter fun target => !names.contains target && target ∈ group).eraseDups

/-- What stands for a reference in the definition of a member of a group. -/
def rename (names : NameMap String) (met : List String) (target : String) : String :=
  match names.get? target with
  | some canonical => canonical
  | none => if target ∈ met then s!"X{met.idxOf target}" else target

def memberHash (group : List String) (names : NameMap String) (name : String) (r : Relation) :
    String :=
  contentHash (r.mapRefs (rename names (metMembers group names name r))).text

/-- Name the defined members of a group, given the names of the relations outside of it. -/
def groupNames (rels : Relations) (group : List String) (names : NameMap String) :
    List (String × String) :=
  let own := group.filterMap fun name =>
    (rels.get? name).map fun r => (name, memberHash group names name r)
  let groupHash := ":".intercalate (NameSet.ofList (own.map (·.2))).toList
  own.map fun (name, h) => (name, contentHash (h ++ ":" ++ groupHash))

/-- Give every relation its canonical name, after those that it refers to. -/
def canonicalNames (rels : Relations) : NameMap String :=
  let simplified : Relations := rels.map Relation.simplify
  simplified.referenceGraph.condensation.leavesFirst.foldl (fun names group =>
    (simplified.groupNames (NameSet.ofList group).toList names).foldl
      (fun names n => names.insert n.1 n.2) names) ∅

end StructuralTyping.Relations
