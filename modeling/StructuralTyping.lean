import StructuralTyping.Code.Basic
import StructuralTyping.Code.Canonical
import StructuralTyping.Code.Declaration
import StructuralTyping.Code.Encoding
import StructuralTyping.Code.Error
import StructuralTyping.Code.Minimization
import StructuralTyping.Code.Printer
import StructuralTyping.Code.Repository
import StructuralTyping.Digraph.Basic
import StructuralTyping.Digraph.Components
import StructuralTyping.Digraph.Order
import StructuralTyping.Exchange.Declaration
import StructuralTyping.Exchange.Json
import StructuralTyping.Exchange.Relation
import StructuralTyping.Inference.Constraint
import StructuralTyping.Inference.Site
import StructuralTyping.Inference.Solver
import StructuralTyping.NameMap
import StructuralTyping.Pattern.Compression
import StructuralTyping.Pattern.Error
import StructuralTyping.Pattern.Filtering
import StructuralTyping.Pattern.Forest
import StructuralTyping.Pattern.Graph
import StructuralTyping.Pattern.Join
import StructuralTyping.Pattern.Kind
import StructuralTyping.Pattern.Printer
import StructuralTyping.Pattern.Promotion
import StructuralTyping.Refinement
import StructuralTyping.Relation.Basic
import StructuralTyping.Relation.Filter
import StructuralTyping.Relation.Naming
import StructuralTyping.Relation.Printer
import StructuralTyping.Relation.Simplification
import StructuralTyping.Report
import StructuralTyping.Session
import StructuralTyping.Text.ContentHash
import StructuralTyping.Text.Grapheme
import StructuralTyping.Text.Label
import StructuralTyping.Text.Layout
import StructuralTyping.Text.Quoted
import StructuralTyping.Text.Shown
import StructuralTyping.Text.Span
import StructuralTyping.Proofs.AnchoredRefinement
import StructuralTyping.Proofs.BreadthFirst
import StructuralTyping.Proofs.CanonicalForm
import StructuralTyping.Proofs.CanonicalName
import StructuralTyping.Proofs.CanonicalText
import StructuralTyping.Proofs.CoarsestPartition
import StructuralTyping.Proofs.Exploration
import StructuralTyping.Proofs.Lookup
import StructuralTyping.Proofs.Quotient
import StructuralTyping.Proofs.Registration
import StructuralTyping.Proofs.RegistrationHistory
import StructuralTyping.Proofs.TreeEquality
import StructuralTyping.Proofs.UniqueReadability
import StructuralTyping.Proofs.Outcome
import StructuralTyping.Proofs.PatternClasses
import StructuralTyping.Proofs.FormedGraph
import StructuralTyping.Proofs.CodePatterns
import StructuralTyping.Proofs.ShapeOrder
import StructuralTyping.Proofs.CompressedQuotient
import StructuralTyping.Proofs.MergeSteps
import StructuralTyping.Proofs.SettledGraph
import StructuralTyping.Proofs.BoundClasses
import StructuralTyping.Proofs.SingletonSearch
import StructuralTyping.Proofs.CongruenceClosure
import StructuralTyping.Proofs.GraphEvolution
import StructuralTyping.Proofs.TypedClasses
import StructuralTyping.Proofs.FilterPatterns
import StructuralTyping.Proofs.SiteConstraints
import StructuralTyping.Proofs.Solving
import StructuralTyping.Proofs.InferenceRun
import StructuralTyping.Proofs.Termination
import StructuralTyping.Proofs.InferenceSoundness
import StructuralTyping.Proofs.DependencyOrder
import StructuralTyping.Proofs.AcyclicPart
import StructuralTyping.Proofs.CondensedGraph
import StructuralTyping.Proofs.RegistrationOrder
import StructuralTyping.Proofs.FailedRegistration
import StructuralTyping.Proofs.PromotedCodes
import StructuralTyping.Proofs.ExhaustivePromotion
import StructuralTyping.Proofs.NameResolution
import StructuralTyping.Proofs.SimplifiedRelation
import StructuralTyping.Proofs.RelationNames
import StructuralTyping.Proofs.RenamedRelations
import StructuralTyping.Proofs.RelationIdentity
import StructuralTyping.Proofs.KnownNames
import StructuralTyping.Proofs.KeptNames
import StructuralTyping.Proofs.FilterSoundness
import StructuralTyping.Proofs.FilterMatching
import StructuralTyping.Proofs.FilterShapes
import StructuralTyping.Proofs.OrderlyMerges
import StructuralTyping.Proofs.FilterCompleteness
import StructuralTyping.Proofs.CarriedOperations
import StructuralTyping.Proofs.RepeatedRegistration
import StructuralTyping.Proofs.Recompilation
import StructuralTyping.Proofs.DataRoundTrip
import StructuralTyping.Proofs.EncodedGraphs
import StructuralTyping.Proofs.GainedInformation
import StructuralTyping.Proofs.FailedMerges
import StructuralTyping.Proofs.MergeOrder
import StructuralTyping.Proofs.ProductLoops
import StructuralTyping.Proofs.RepeatedMerge
import StructuralTyping.Proofs.ForestCalls
import StructuralTyping.Proofs.ExactHash
