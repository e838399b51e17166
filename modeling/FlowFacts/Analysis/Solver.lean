import FlowFacts.Analysis.Basic

/-!
# The worklist solver

The solver keeps a value on every edge and a list of nodes to visit. A visit joins the values on
the incoming edges, applies the transfer function and joins the results into the outgoing edges;
the target of each edge that grows is listed again. A run that settles visits every node once and
then once more for each growth, which bounds it by the height of the analysis.

`Solution.isFixpoint` checks independently that no visit would change anything.
-/

namespace FlowFacts

/-- The order in which listed nodes are visited: the one listed first, or the one listed last, is
    next. -/
inductive Order where
  | fifo
  | lifo
deriving DecidableEq

namespace Order

def name : Order → String
  | fifo => "fifo"
  | lifo => "lifo"

def ofName? : String → Option Order
  | "fifo" => some fifo
  | "lifo" => some lifo
  | _ => none

/-- Lists all nodes; the head is the next one to visit. -/
def start : Order → List Nat → List Nat
  | fifo, nodes => nodes
  | lifo, nodes => nodes.reverse

/-- Lists one more node. -/
def push : Order → List Nat → Nat → List Nat
  | fifo, pending, node => pending ++ [node]
  | lifo, pending, node => node :: pending

end Order

/-- How to run the solver, and whether to keep every value that an edge held. -/
structure SolverConfig where
  order : Order := .fifo
  recordHistory : Bool := false
deriving DecidableEq

/-- How much work a run took: visits of nodes, and growths of values. -/
structure Stats where
  visits : Nat := 0
  updates : Nat := 0
deriving DecidableEq

/-- The state of a run: the value of each edge, the values that it held so far, oldest first, if
    they are recorded, and the nodes still to visit, of which the head is next. -/
structure SolverState (α : Type) where
  values : Array α
  history : Option (Array (List α))
  stats : Stats
  pending : List Nat

namespace SolverState

variable {α : Type} [Domain α] [DecidableEq α]

def value (st : SolverState α) (edge : Edge) : α := st.values.getD edge.id Domain.bottom

/-- What is known in front of a node. -/
def input (st : SolverState α) (g : FlowGraph) (node : Nat) : α :=
  Domain.joinAll ((g.incoming node).map st.value)

/-- The state before the first visit. -/
def start (a : Analysis α) (g : FlowGraph) (config : SolverConfig) : SolverState α :=
  let bottoms : Array α := Array.replicate g.edgeCount Domain.bottom
  let values :=
    match g.entryEdge with
    | some id => bottoms.setIfInBounds id a.initial
    | none => bottoms
  { values := values
    history := if config.recordHistory then some (values.map fun v => [v]) else none
    stats := {}
    pending := config.order.start g.nodes }

/-- Stores a value that differs from the one on the edge, and lists the edge's target. -/
def store (order : Order) (st : SolverState α) (edge : Edge) (value : α) : SolverState α :=
  { values := st.values.setIfInBounds edge.id value
    history := st.history.map fun h => h.modify edge.id (· ++ [value])
    stats := { st.stats with updates := st.stats.updates + 1 }
    pending := order.push st.pending edge.target }

/-- Joins a value into an edge. -/
def offer (order : Order) (st : SolverState α) (edge : Edge) (value : α) : SolverState α :=
  let joined := Domain.join (st.value edge) value
  if joined = st.value edge then st else st.store order edge joined

/-- Joins values into edges, one after the other. -/
def offerAll (order : Order) (st : SolverState α) (offers : List (Edge × α)) : SolverState α :=
  offers.foldl (fun st o => st.offer order o.1 o.2) st

end SolverState

namespace Solver

variable {α : Type} [Domain α] [DecidableEq α]

def visit (a : Analysis α) (ctx : FlowContext) (order : Order) (node : Nat) (st : SolverState α) :
    Except FlowFault (SolverState α) :=
  match ctx.instruction? node with
  | none => .error (.noInstruction node)
  | some inst => do
    let outs := ctx.graph.outgoing node
    let produced ← a.transfer ctx inst node (st.input ctx.graph node) outs
    if produced.length = outs.length then
      let st := { st with stats := { st.stats with visits := st.stats.visits + 1 } }
      return st.offerAll order (outs.zip produced)
    else .error (.arity a.name produced.length outs.length node)

/-- Visits listed nodes until none is left. Fails after `fuel` visits. -/
def iterate (a : Analysis α) (ctx : FlowContext) (order : Order) :
    Nat → SolverState α → Except FlowError (SolverState α)
  | fuel, st =>
    match st.pending with
    | [] => .ok st
    | node :: rest =>
      match fuel with
      | 0 => .error (.unsettled ctx.function.name a.name)
      | fuel + 1 =>
        match visit a ctx order node { st with pending := rest } with
        | .error fault => .error (ctx.malformed fault)
        | .ok st => iterate a ctx order fuel st

/-- How many visits a run may take: one for each node, and one for each growth of an edge. -/
def visitLimit (a : Analysis α) (g : FlowGraph) : Nat := g.insts.size + g.edgeCount * a.height g

end Solver

/-- The facts that a run settled on, with the values that each edge held, oldest first, if they were
    recorded. -/
structure Solution (α : Type) where
  function : String
  graph : FlowGraph
  values : Array α
  history : Option (Array (List α))
  stats : Stats

/-- Runs an analysis on a function. -/
def solve {α : Type} [Domain α] [DecidableEq α] (a : Analysis α) (f : Function)
    (config : SolverConfig) : Except FlowError (Solution α) :=
  let g := FlowGraph.build f a.direction
  match Solver.iterate a ⟨f, g⟩ config.order (Solver.visitLimit a g) (.start a g config) with
  | .error e => .error e
  | .ok st => .ok ⟨f.name, g, st.values, st.history, st.stats⟩

namespace Solution

variable {α : Type} [Domain α]

def direction (s : Solution α) : Direction := s.graph.direction

def value (s : Solution α) (edge : Edge) : α := s.values.getD edge.id Domain.bottom

/-- The value of the edge between two nodes, if there is one. -/
def edgeValue? (s : Solution α) (source target : Nat) : Option α :=
  (s.graph.edgeBetween? source target).map s.value

/-- Every edge with its value, by source and then by number. -/
def facts (s : Solution α) : List (Edge × α) :=
  (List.range s.graph.nodeCount).flatMap fun node =>
    (s.graph.outgoing node).map fun edge => (edge, s.value edge)

/-- An edge and a value as a line. -/
def factLine (source target : Nat) (value : String) : String :=
  "Edge " ++ toString source ++ "->Edge " ++ toString target ++ ":" ++ value ++ "\n"

/-- The facts as text, a line for each edge. -/
def text [Rendered α] (s : Solution α) : String :=
  String.join (s.facts.map fun r => factLine r.1.source r.1.target (Rendered.text r.2))

/-- What is known in front of a node. -/
def input (s : Solution α) (node : Nat) : α :=
  Domain.joinAll ((s.graph.incoming node).map s.value)

/-- Whether a visit of the node, with the instructions of `f`, would leave all values as they are.
    A node without an instruction is passed over. -/
def isStableAt [DecidableEq α] (s : Solution α) (a : Analysis α) (f : Function) (node : Nat) :
    Except FlowError Bool :=
  let ctx : FlowContext := ⟨f, s.graph⟩
  match ctx.instruction? node with
  | none => .ok true
  | some inst =>
    let outs := s.graph.outgoing node
    match a.transfer ctx inst node (s.input node) outs with
    | .error fault => .error (ctx.malformed fault)
    | .ok produced =>
      .ok ((outs.zip produced).all fun o => Domain.join (s.value o.1) o.2 = s.value o.1)

/-- Whether all the listed nodes are stable; the first one that is not, or fails, decides. -/
def areStable [DecidableEq α] (s : Solution α) (a : Analysis α) (f : Function) :
    List Nat → Except FlowError Bool
  | [] => .ok true
  | node :: rest => do
    if ← s.isStableAt a f node then s.areStable a f rest else return false

/-- Whether no visit, with the instructions of `f`, would change any value. -/
def isFixpoint [DecidableEq α] (s : Solution α) (a : Analysis α) (f : Function) :
    Except FlowError Bool :=
  s.areStable a f s.graph.nodes

end Solution

end FlowFacts
