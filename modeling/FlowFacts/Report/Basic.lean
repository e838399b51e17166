import FlowFacts.Analysis.Kind
import FlowFacts.Analysis.Solver
import FlowFacts.Program.Printer

/-!
# Reports

A report holds the facts of one analysis on one function as text and as JSON, apart from the
types of the analysis.
-/

namespace FlowFacts

/-- The value of one edge, as text and as JSON. -/
structure Fact where
  source : Nat
  target : Nat
  value : String
  data : Json

/-- One instruction with its index and the label of its block. -/
structure IndexedInstruction where
  index : Nat
  block : String
  text : String
deriving DecidableEq

/-- The facts of one analysis on one function, by source and edge, with the instructions by index
    and the work that the run took. -/
structure Report where
  function : String
  analysis : AnalysisKind
  direction : Direction
  stats : Stats
  instructions : List IndexedInstruction
  facts : List Fact

namespace Report

/-- The first instruction listed with an index. -/
def instruction? (r : Report) (index : Nat) : Option IndexedInstruction :=
  r.instructions.find? fun i => i.index = index

/-- The first fact listed for an edge. -/
def fact? (r : Report) (source target : Nat) : Option Fact :=
  r.facts.find? fun x => x.source = source ∧ x.target = target

/-- The facts as text, a line for each edge. -/
def text (r : Report) : String :=
  String.join (r.facts.map fun x => Solution.factLine x.source x.target x.value)

/-- The instruction at an index, with its block and its text. -/
def listing? (f : Function) (g : FlowGraph) (index : Nat) : Option IndexedInstruction :=
  (g.instruction? f index).map fun inst =>
    ⟨index, ((f.block? inst.block).map Block.label).getD "", f.instText inst⟩

/-- The report of a solution. -/
def ofSolution {α : Type} [Domain α] [Rendered α] (kind : AnalysisKind) (f : Function)
    (s : Solution α) : Report where
  function := f.name
  analysis := kind
  direction := s.direction
  stats := s.stats
  instructions := s.graph.nodes.filterMap (listing? f s.graph)
  facts := s.facts.map fun r =>
    ⟨r.1.source, r.1.target, Rendered.text r.2, Rendered.toJson r.2⟩

/-- Runs an analysis on a function and reports its facts. -/
def solved {α : Type} [Domain α] [DecidableEq α] [Rendered α] (kind : AnalysisKind)
    (a : Analysis α) (f : Function) (config : SolverConfig) : Except FlowError Report :=
  (solve a f config).map (ofSolution kind f)

/-- Runs one of the analyses on a function and reports its facts. -/
def run (kind : AnalysisKind) (f : Function) (config : SolverConfig) : Except FlowError Report :=
  match kind with
  | .liveness => solved kind Liveness.analysis f config
  | .pointsTo => solved kind Pointer.analysis f config
  | .reaching => solved kind Reaching.analysis f config

end Report

end FlowFacts
