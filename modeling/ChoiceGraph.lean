import ChoiceGraph.Config
import ChoiceGraph.Config.Environment
import ChoiceGraph.Constraint.Buckets
import ChoiceGraph.Constraint.Fingerprint
import ChoiceGraph.Constraint.Store
import ChoiceGraph.Error
import ChoiceGraph.Graph.Basic
import ChoiceGraph.Graph.Collector
import ChoiceGraph.Graph.Node
import ChoiceGraph.Graph.Pool
import ChoiceGraph.Machine.Basic
import ChoiceGraph.Machine.Heap
import ChoiceGraph.Machine.Run
import ChoiceGraph.Number.Double
import ChoiceGraph.Number.Floored
import ChoiceGraph.Number.Shortest
import ChoiceGraph.Proofs.Accounts
import ChoiceGraph.Proofs.Acyclicity
import ChoiceGraph.Proofs.Agreement
import ChoiceGraph.Proofs.Aliases
import ChoiceGraph.Proofs.Allocation
import ChoiceGraph.Proofs.Asking
import ChoiceGraph.Proofs.Attempts
import ChoiceGraph.Proofs.Balance
import ChoiceGraph.Proofs.Bindings
import ChoiceGraph.Proofs.Branches
import ChoiceGraph.Proofs.BreadthFirst
import ChoiceGraph.Proofs.CallTimeChoice
import ChoiceGraph.Proofs.Charges
import ChoiceGraph.Proofs.Closures
import ChoiceGraph.Proofs.Collection
import ChoiceGraph.Proofs.Comparisons
import ChoiceGraph.Proofs.Conclusions
import ChoiceGraph.Proofs.Construction
import ChoiceGraph.Proofs.Contents
import ChoiceGraph.Proofs.Copies
import ChoiceGraph.Proofs.Currying
import ChoiceGraph.Proofs.Dealing
import ChoiceGraph.Proofs.Decisions
import ChoiceGraph.Proofs.Demanding
import ChoiceGraph.Proofs.Derivations
import ChoiceGraph.Proofs.Determinacy
import ChoiceGraph.Proofs.Division
import ChoiceGraph.Proofs.Drafting
import ChoiceGraph.Proofs.Easing
import ChoiceGraph.Proofs.EchoedArguments
import ChoiceGraph.Proofs.EchoedReductions
import ChoiceGraph.Proofs.EchoedSteps
import ChoiceGraph.Proofs.Echoes
import ChoiceGraph.Proofs.Edits
import ChoiceGraph.Proofs.Effects
import ChoiceGraph.Proofs.Enumeration
import ChoiceGraph.Proofs.Equality
import ChoiceGraph.Proofs.Evolution
import ChoiceGraph.Proofs.Exactness
import ChoiceGraph.Proofs.Exhaustion
import ChoiceGraph.Proofs.Expressions
import ChoiceGraph.Proofs.Fates
import ChoiceGraph.Proofs.Footprint
import ChoiceGraph.Proofs.Forcing
import ChoiceGraph.Proofs.Frames
import ChoiceGraph.Proofs.Generators
import ChoiceGraph.Proofs.Ground
import ChoiceGraph.Proofs.HeadSteps
import ChoiceGraph.Proofs.Identifiers
import ChoiceGraph.Proofs.Indirections
import ChoiceGraph.Proofs.Instantiation
import ChoiceGraph.Proofs.Invariant
import ChoiceGraph.Proofs.Isolation
import ChoiceGraph.Proofs.Issuing
import ChoiceGraph.Proofs.Jobs
import ChoiceGraph.Proofs.Laws
import ChoiceGraph.Proofs.Layers
import ChoiceGraph.Proofs.Legibility
import ChoiceGraph.Proofs.LevelOrder
import ChoiceGraph.Proofs.Lineages
import ChoiceGraph.Proofs.Linking
import ChoiceGraph.Proofs.Listings
import ChoiceGraph.Proofs.Meanings
import ChoiceGraph.Proofs.Mirrors
import ChoiceGraph.Proofs.Moves
import ChoiceGraph.Proofs.Narrowing
import ChoiceGraph.Proofs.NestedSearches
import ChoiceGraph.Proofs.NormalForms
import ChoiceGraph.Proofs.Operations
import ChoiceGraph.Proofs.Partition
import ChoiceGraph.Proofs.Passes
import ChoiceGraph.Proofs.Passing
import ChoiceGraph.Proofs.Places
import ChoiceGraph.Proofs.Preemption
import ChoiceGraph.Proofs.Preparing
import ChoiceGraph.Proofs.Printing
import ChoiceGraph.Proofs.Printouts
import ChoiceGraph.Proofs.Provenance
import ChoiceGraph.Proofs.PullingTabs
import ChoiceGraph.Proofs.Reading
import ChoiceGraph.Proofs.Reduction
import ChoiceGraph.Proofs.Reflections
import ChoiceGraph.Proofs.RenderedArguments
import ChoiceGraph.Proofs.RenderedReductions
import ChoiceGraph.Proofs.RenderedSteps
import ChoiceGraph.Proofs.Rendering
import ChoiceGraph.Proofs.Replays
import ChoiceGraph.Proofs.Restarts
import ChoiceGraph.Proofs.Resumption
import ChoiceGraph.Proofs.Rewriting
import ChoiceGraph.Proofs.RoundTrips
import ChoiceGraph.Proofs.Searches
import ChoiceGraph.Proofs.Settling
import ChoiceGraph.Proofs.SharedCalls
import ChoiceGraph.Proofs.Signatures
import ChoiceGraph.Proofs.Slices
import ChoiceGraph.Proofs.Spoiling
import ChoiceGraph.Proofs.StepLimits
import ChoiceGraph.Proofs.Storage
import ChoiceGraph.Proofs.Strictness
import ChoiceGraph.Proofs.Sums
import ChoiceGraph.Proofs.Tallies
import ChoiceGraph.Proofs.Tasks
import ChoiceGraph.Proofs.TermOrder
import ChoiceGraph.Proofs.Tracing
import ChoiceGraph.Proofs.Unification
import ChoiceGraph.Proofs.Values
import ChoiceGraph.Proofs.Variants
import ChoiceGraph.Proofs.Views
import ChoiceGraph.Proofs.Weaving
import ChoiceGraph.Proofs.WellFormed
import ChoiceGraph.Proofs.Yields
import ChoiceGraph.Reduction.Argument
import ChoiceGraph.Reduction.Narrowing
import ChoiceGraph.Reduction.PreludeStep
import ChoiceGraph.Reduction.PullTab
import ChoiceGraph.Reduction.Reduce
import ChoiceGraph.Reduction.RuleStep
import ChoiceGraph.Schedule.Frame
import ChoiceGraph.Schedule.Lineup
import ChoiceGraph.Schedule.Search
import ChoiceGraph.Schedule.Turn
import ChoiceGraph.Sharing.Board
import ChoiceGraph.Sharing.Cell
import ChoiceGraph.Sharing.Layer
import ChoiceGraph.Symbol.Prelude
import ChoiceGraph.Symbol.Rule
import ChoiceGraph.Symbol.Signature
import ChoiceGraph.Term
import ChoiceGraph.TermGraph.Basic
import ChoiceGraph.TermGraph.Order
import ChoiceGraph.TermGraph.Outline
import ChoiceGraph.TermGraph.Show
import ChoiceGraph.Text.Natural
import ChoiceGraph.Text.Quoted
import ChoiceGraph.Text.Unprintable
