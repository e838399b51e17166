import FlowFacts.Analysis.Basic
import FlowFacts.Analysis.Context
import FlowFacts.Analysis.Kind
import FlowFacts.Analysis.Liveness
import FlowFacts.Analysis.Pointer
import FlowFacts.Analysis.Reaching
import FlowFacts.Analysis.Solver
import FlowFacts.Cli.Arguments
import FlowFacts.Cli.Command
import FlowFacts.Collection.OrderedMap
import FlowFacts.Collection.SortedMap
import FlowFacts.Collection.SortedSet
import FlowFacts.Collection.StrictOrder
import FlowFacts.Fact.Domain
import FlowFacts.Fact.IndexSet
import FlowFacts.Fact.Location
import FlowFacts.Fact.PointsTo
import FlowFacts.Graph.Basic
import FlowFacts.Json.Basic
import FlowFacts.Json.Decode
import FlowFacts.Json.Parser
import FlowFacts.Json.Printer
import FlowFacts.Json.Quoted
import FlowFacts.Json.Text
import FlowFacts.Main
import FlowFacts.Number.Binary64
import FlowFacts.Number.Numeral
import FlowFacts.Number.Shortest
import FlowFacts.Program.Builder
import FlowFacts.Program.Codec
import FlowFacts.Program.Function
import FlowFacts.Program.Instruction
import FlowFacts.Program.NameError
import FlowFacts.Program.Opcode
import FlowFacts.Program.Operand
import FlowFacts.Program.Printer
import FlowFacts.Program.Tally
import FlowFacts.Report.Basic
import FlowFacts.Report.Codec
import FlowFacts.Report.Rendering
import FlowFacts.Report.Settings
import FlowFacts.Report.Store
import FlowFacts.Source.Grammar
import FlowFacts.Source.Resolve
import FlowFacts.Source.Tree
import FlowFacts.Storage.Access
import FlowFacts.Storage.Directory
import FlowFacts.Storage.Load
import FlowFacts.Text.Reader
import FlowFacts.Text.Style
import FlowFacts.Proofs.DomainOrder
import FlowFacts.Proofs.GraphShape
import FlowFacts.Proofs.SolverRun
import FlowFacts.Proofs.Fixpoint
import FlowFacts.Proofs.Agreement
import FlowFacts.Proofs.FactOrder
import FlowFacts.Proofs.TransferRelation
import FlowFacts.Proofs.PointerRules
import FlowFacts.Proofs.AnalysisLaws
import FlowFacts.Proofs.Termination
import FlowFacts.Proofs.OrderIndependence
import FlowFacts.Proofs.ContextQueries
import FlowFacts.Proofs.FactPaths
import FlowFacts.Proofs.ReachingPaths
import FlowFacts.Proofs.LivenessPaths
import FlowFacts.Proofs.BuilderRuns
import FlowFacts.Proofs.PointerConstraints
import FlowFacts.Proofs.ReaderLaws
import FlowFacts.Proofs.TreeText
import FlowFacts.Proofs.ReadBack
import FlowFacts.Proofs.ParsedTrees
import FlowFacts.Proofs.Assembly
import FlowFacts.Proofs.ScopeLaws
import FlowFacts.Proofs.Resolution
import FlowFacts.Proofs.PrintedForm
import FlowFacts.Proofs.PrintParse
import FlowFacts.Proofs.BuiltFunctions
import FlowFacts.Proofs.Acceptance
import FlowFacts.Proofs.NameResolution
import FlowFacts.Proofs.PrintedTrees
import FlowFacts.Proofs.Derailment
import FlowFacts.Proofs.PrintStability
import FlowFacts.Proofs.PathSoundness
import FlowFacts.Proofs.ControlFlow
import FlowFacts.Proofs.VisitOrder
import FlowFacts.Proofs.Rejection
import FlowFacts.Proofs.GraphTables
import FlowFacts.Proofs.MirrorGraphs
import FlowFacts.Proofs.NumberIndependence
import FlowFacts.Proofs.ReportCache
import FlowFacts.Proofs.JsonReadBack
import FlowFacts.Proofs.ProgramCodec
import FlowFacts.Proofs.LayoutIndependence
import FlowFacts.Proofs.PointerFrame
import FlowFacts.Proofs.PointerShapes
import FlowFacts.Proofs.ParallelCopies
import FlowFacts.Proofs.RunHistory
import FlowFacts.Proofs.ReportRows
import FlowFacts.Proofs.BlockLinks
import FlowFacts.Proofs.FactText
import FlowFacts.Proofs.OpcodeCounts
import FlowFacts.Proofs.PointsToEntries
