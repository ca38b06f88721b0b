import StructuralTyping.Exchange.Relation
import StructuralTyping.Inference.Solver
import StructuralTyping.Pattern.Printer
import StructuralTyping.Relation.Naming

/-!
# Sessions

A session compiles units against one repository. What a unit registers, promoted patterns included,
stays known to the units after it, also if the unit fails in the end.
-/
namespace StructuralTyping

structure SessionOptions where
  inference : InferenceOptions := {}
  /-- Present the pattern graph with classes merged that cannot be told apart. -/
  compress : Bool := true
  print : Text.PrintOptions := {}

structure Session where
  options : SessionOptions := {}
  repository : Repository := .initial

structure Compiled where
  /-- The canonical name of each declared code. -/
  representatives : NameMap String
  graph : PatternGraph
  compressed : Option CompressedGraph
  promoted : List Promotion
  /-- The ends of the nodes of each relation, in the compressed graph if there is one. -/
  annotations : NameMap (List Ends)
  /-- The canonical name of each relation. -/
  names : NameMap String

namespace CompressedGraph

def position (c : CompressedGraph) (id : Nat) : Nat := (c.get? id).getD id

def annotate (c : CompressedGraph) (annotations : NameMap (List Ends)) : NameMap (List Ends) :=
  annotations.map fun ends => ends.map fun p => ⟨c.position p.input, c.position p.output⟩

end CompressedGraph

namespace Compiled

def printPatterns (options : Text.PrintOptions) (c : Compiled) : String :=
  (c.compressed.getD c.graph.compressed).print false options

end Compiled

namespace Session

/-- Forget all codes. -/
def reset (s : Session) : Session := { s with repository := .initial }

def assemble (options : SessionOptions) (relations : Relations) (representatives : NameMap String)
    (inference : Inference) : Compiled :=
  let compressed := if options.compress then some inference.graph.compressed else none
  { representatives
    graph := inference.graph
    compressed
    promoted := inference.promoted
    annotations := match compressed with
      | some c => c.annotate relations.annotations
      | none => relations.annotations
    names := relations.canonicalNames }

/-- Register the codes of a unit and infer the patterns of its relations. -/
def compile (s : Session) (u : CompilationUnit) (spans : SpanTable) :
    Except PatternError Compiled × Session :=
  match s.repository.register u.codes with
  | (.error e, repository) => (.error (.code e), { s with repository })
  | (.ok representatives, repository) =>
    match u.relations.infer repository spans s.options.inference with
    | (.error e, repository) => (.error e, { s with repository })
    | (.ok inference, repository) =>
      (.ok (assemble s.options u.relations representatives inference), { s with repository })

def printCodes (s : Session) : String :=
  Text.renderBlocks false s.options.print s.repository.blocks

end Session

end StructuralTyping
