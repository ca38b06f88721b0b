import StructuralTyping.Code.Repository
import StructuralTyping.Pattern.Kind

/-!
# Joining shapes

The join of two shapes is the kind that says what both say, if some code can have both. Merging two
shapes also collects their labels; once a pattern is a vector, all labels of members are one label.
-/
namespace StructuralTyping

namespace PatternKind

/-- Whether every code of the kind is a vector. -/
def isVector (repo : Repository) : PatternKind → Bool
  | vector => true
  | bound code => match repo.find code with
    | .code (.vector _) => true
    | _ => false
  | _ => false

/-- The label under which a pattern of the kind keeps an edge. -/
def memberLabel (repo : Repository) (kind : PatternKind) (label : String) : String :=
  if kind.isVector repo && Text.isMemberLabel label then Text.vectorMember else label

end PatternKind

namespace Shape

def allMembers (s : Shape) : Bool := s.labels.toList.all Text.isMemberLabel

def labelsWithin (s : Shape) (fields : NameMap String) : Bool := s.labels.toList.all fields.contains

def labelsEqual (s : Shape) (fields : NameMap String) : Bool := s.labels = fields.map fun _ => ()

/-- Whether the code bound to `name` can have an unbound shape. -/
def fits (repo : Repository) (s : Shape) (name : String) : Bool :=
  match repo.find name with
  | .code (.product fields) => match s.kind with
    | .unconstrained | .openProduct => s.labelsWithin fields
    | .closedUntyped | .closedProduct => s.labelsEqual fields
    | _ => false
  | .code (.union fields) => match s.kind with
    | .unconstrained | .openUnion | .closedUnion => s.labelsWithin fields
    | .closedUntyped => s.labelsEqual fields
    | _ => false
  | .code (.vector _) => match s.kind with
    | .unconstrained | .vector | .closedUntyped => s.allMembers
    | _ => false
  | .builtin _ => match s.kind with
    | .unconstrained | .closedUntyped => s.labels.isEmpty
    | _ => false
  | .undefined => false

/-- The join of two shapes, the one of lower rank first. -/
def joinRanked (repo : Repository) (l r : Shape) : Option PatternKind :=
  let within := l.labels.subset r.labels
  let equal := decide (l.labels = r.labels)
  match l.kind, r.kind with
  | .bound c, .bound d => if c = d then some r.kind else none
  | _, .bound name => if l.fits repo name then some r.kind else none
  | .unconstrained, .closedUntyped => if within then some r.kind else none
  | .unconstrained, .vector => if l.allMembers then some .vector else none
  | .unconstrained, .closedProduct => if within then some r.kind else none
  | .unconstrained, .closedUnion => if within then some r.kind else none
  | .unconstrained, _ => some r.kind
  | .openProduct, .openProduct => some .openProduct
  | .openProduct, .closedUntyped => if equal then some .closedProduct else none
  | .openProduct, .closedProduct => if within then some .closedProduct else none
  | .openUnion, .openUnion => some .openUnion
  | .openUnion, .closedUntyped => if equal then some .closedUnion else none
  | .openUnion, .closedUnion => if within then some .closedUnion else none
  | .closedUntyped, .closedUntyped => if equal then some .closedUntyped else none
  | .closedUntyped, .vector => if l.allMembers then some .vector else none
  | .closedUntyped, .closedProduct => if equal then some .closedProduct else none
  | .closedUntyped, .closedUnion => if equal then some .closedUnion else none
  | .vector, .vector => some .vector
  | .closedProduct, .closedProduct => if equal then some .closedProduct else none
  | .closedUnion, .closedUnion => if equal then some .closedUnion else none
  | _, _ => none

/-- The kind that says what both shapes say. -/
def join (repo : Repository) (l r : Shape) : Option PatternKind :=
  if l.kind.rank ≤ r.kind.rank then joinRanked repo l r else joinRanked repo r l

/-- Both shapes in one: the join of the kinds with the labels of both. -/
def merge (repo : Repository) (l r : Shape) : Option Shape :=
  (join repo l r).map fun kind =>
    ⟨kind, .ofList ((l.labels.toList ++ r.labels.toList).map (kind.memberLabel repo))⟩

end Shape

end StructuralTyping
