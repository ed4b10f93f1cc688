import SignalFlow.Scalar.Binary64
import SignalFlow.Satisfiability.Interval
import SignalFlow.Fact.Basic
import SignalFlow.Limits
import SignalFlow.Diagnostic
import SignalFlow.Diagram.Order
import SignalFlow.Diagram.Parameter
import SignalFlow.Diagram.Reader
import SignalFlow.Diagram.Twins
import SignalFlow.Transfer.Rule
import SignalFlow.FlowGraph.Build
import SignalFlow.FlowGraph.Cycles
import SignalFlow.FlowGraph.Printer
import SignalFlow.Propagation.Visit
import SignalFlow.Obligation
import SignalFlow.Assumption.Reader
import SignalFlow.Assumption.Seeding
import SignalFlow.Definition.Closure
import SignalFlow.Definition.Application
import SignalFlow.Encoding.Diagram
import SignalFlow.Analysis.Report
import SignalFlow.Analysis.Drawing
import SignalFlow.Main
import SignalFlow.Proofs.Iteration
import SignalFlow.Proofs.Meaning
import SignalFlow.Proofs.ExtendedMeaning
import SignalFlow.Proofs.Binary64Order
import SignalFlow.Proofs.Clauses
import SignalFlow.Proofs.RangeMeaning
import SignalFlow.Proofs.IntervalOracle
import SignalFlow.Proofs.SettledObligation
import SignalFlow.Proofs.Inlining
import SignalFlow.Proofs.ClosureMeaning
import SignalFlow.Proofs.Dependency
import SignalFlow.Proofs.ScalarClosure
import SignalFlow.Proofs.Execution
import SignalFlow.Proofs.Unfolding
import SignalFlow.Proofs.Layout
import SignalFlow.Proofs.RunOrder
import SignalFlow.Proofs.StageRun
import SignalFlow.Proofs.Encoded
import SignalFlow.Proofs.Signals
import SignalFlow.Proofs.StraightLine
import SignalFlow.Proofs.Synchrony
import SignalFlow.Proofs.Lifting
import SignalFlow.Proofs.VectorClosure
import SignalFlow.Proofs.ModelOccurrence
import SignalFlow.Proofs.Elimination
import SignalFlow.Proofs.Wiring
import SignalFlow.Proofs.FactGrowth
import SignalFlow.Proofs.LoopSearch
import SignalFlow.Proofs.Processing
import SignalFlow.Proofs.Visiting
import SignalFlow.Proofs.Baseline
import SignalFlow.Proofs.LoopRecords
import SignalFlow.Proofs.Consumption
import SignalFlow.Proofs.LoopCoverage
import SignalFlow.Proofs.LiftingEnds
import SignalFlow.Proofs.ElementClosure
import SignalFlow.Proofs.HiddenLoop
import SignalFlow.Proofs.ExactArithmetic
import SignalFlow.Proofs.RangeArithmetic
import SignalFlow.Proofs.FactMeaning
import SignalFlow.Proofs.BlockMeaning
import SignalFlow.Proofs.TransferSoundness
import SignalFlow.Proofs.ExtendedRational
import SignalFlow.Proofs.BlockAgreement
import SignalFlow.Proofs.DelayedFacts
import SignalFlow.Proofs.ConstantBounds
import SignalFlow.Proofs.LoopRounds
import SignalFlow.Proofs.LoopExecution
import SignalFlow.Proofs.LoopInvariant
import SignalFlow.Proofs.SymmetricEquality
import SignalFlow.Proofs.GraphCoherence
import SignalFlow.Proofs.ClosureIdempotence
import SignalFlow.Proofs.Writing
import SignalFlow.Proofs.Depiction
import SignalFlow.Proofs.SignalSubjects
import SignalFlow.Proofs.CrossedFacts
import SignalFlow.Proofs.FlowEquations
import SignalFlow.Proofs.UniqueFlow
import SignalFlow.Proofs.ListingOrder
import SignalFlow.Proofs.FaultReports
import SignalFlow.Proofs.Traversal
import SignalFlow.Proofs.ReleaseOrder
import SignalFlow.Proofs.OrderIndependence
import SignalFlow.Proofs.FaithfulLayout
import SignalFlow.Proofs.GuardPartition
import SignalFlow.Proofs.MergedFacts
import SignalFlow.Proofs.DivisorCoverage
import SignalFlow.Proofs.Reciprocals
import SignalFlow.Proofs.Binary64Sign
import SignalFlow.Proofs.AbsoluteValue
import SignalFlow.Proofs.EntityDecoding
import SignalFlow.Proofs.MarkupLayout
import SignalFlow.Proofs.MarkupGrammar
import SignalFlow.Proofs.ShortestDecimal
import SignalFlow.Proofs.NearestBinary
import SignalFlow.Proofs.PositionalNumerals
import SignalFlow.Proofs.WrittenNumbers
import SignalFlow.Proofs.TermGrammar
import SignalFlow.Proofs.TermReadback
import SignalFlow.Proofs.ExactSubstitution
import SignalFlow.Proofs.RangeLattice
import SignalFlow.Proofs.RepeatedSeeding
import SignalFlow.Proofs.TwinBlocks
