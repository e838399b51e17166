import FlowFacts.Program.Function

/-!
# Instruction graphs

Every instruction of a function gets an index, counted from 1 in block order; index 0 is a
virtual node in front of the entry. Edges follow the flow of control, or run against it in a
backward graph. There is at most one edge between two nodes, so each flow has one value.

`FlowGraph.flows` lists the transfers of control between instructions; the edges are these
transfers, without repetition, and the edge from the virtual node last.
-/

namespace FlowFacts

/-- Which way facts travel. -/
inductive Direction where
  | forward
  | backward
deriving DecidableEq

namespace Direction

/-- The name of the direction, in text and in JSON. -/
def name : Direction → String
  | forward => "forward"
  | backward => "backward"

def ofName? : String → Option Direction
  | "forward" => some forward
  | "backward" => some backward
  | _ => none

/-- The ends of an edge for a transfer of control between two nodes. -/
def orient : Direction → Nat × Nat → Nat × Nat
  | forward, (a, b) => (a, b)
  | backward, (a, b) => (b, a)

end Direction

/-- An edge between two nodes; `id` is its place in the list of edges. -/
structure Edge where
  source : Nat
  target : Nat
  id : Nat
deriving DecidableEq

/-- The instruction graph of a function: the instructions by index, from index 1 on, the edges by
    number, and the number of the edge from the virtual node. -/
structure FlowGraph where
  direction : Direction
  insts : Array InstId
  edges : Array Edge
  entryEdge : Option Nat
deriving DecidableEq

namespace FlowGraph

/-- The virtual node in front of the entry. -/
def virtualEntry : Nat := 0

/-! ## Transfers of control -/

/-- Neighbouring elements of a list. -/
def neighbours {α : Type} (xs : List α) : List (α × α) := xs.zip xs.tail

/-- Whether an instruction exists and is a merge. -/
def isMergeAt (f : Function) (id : InstId) : Bool := (f.inst? id).any Instruction.isMerge

/-- Whether an instruction exists and is a terminator. -/
def isTerminatorAt (f : Function) (id : InstId) : Bool := (f.inst? id).any Instruction.isTerminator

/-- The merges at the start of a block. -/
def leadingMerges (f : Function) (block : Block) : List InstId :=
  block.instructions.takeWhile (isMergeAt f)

/-- The instructions of a block after its leading merges. -/
def afterMerges (f : Function) (block : Block) : List InstId :=
  block.instructions.dropWhile (isMergeAt f)

/-- From the last instruction of each predecessor to the first instruction of the block. -/
def flowsIn (f : Function) (block : Block) (first : InstId) : List (InstId × InstId) :=
  block.predecessors.filterMap fun pred =>
    ((f.block? pred).bind Block.last?).map fun last => (last, first)

/-- From each leading merge to the next one, and from the last one to what follows. -/
def flowsAtMerges (f : Function) (block : Block) : List (InstId × InstId) :=
  neighbours (leadingMerges f block) ++
    match (leadingMerges f block).getLast?, (afterMerges f block).head? with
    | some merge, some next => [(merge, next)]
    | _, _ => []

/-- From each later instruction to the next one, except from terminators. -/
def flowsInside (f : Function) (block : Block) : List (InstId × InstId) :=
  (neighbours (afterMerges f block)).filter fun p => !isTerminatorAt f p.1

/-- From the last instruction of the block to the first one of each successor. -/
def flowsOut (f : Function) (block : Block) : List (InstId × InstId) :=
  match block.last? with
  | none => []
  | some last =>
    block.successors.filterMap fun succ =>
      ((f.block? succ).bind Block.first?).map fun first => (last, first)

/-- The transfers of control at a block. A block without instructions has none. -/
def flowsAt (f : Function) (block : Block) : List (InstId × InstId) :=
  match block.first? with
  | none => []
  | some first =>
    flowsIn f block first ++ flowsAtMerges f block ++ flowsInside f block ++ flowsOut f block

/-- The transfers of control of a function, block by block. -/
def flows (f : Function) : List (InstId × InstId) := f.blocks.values.flatMap (flowsAt f)

/-! ## Construction -/

/-- The numbers carried by the instructions of a function, in block order. -/
def numbering (f : Function) : Array InstId := (f.instructions.map Instruction.id).toArray

/-- The index of the instruction that carries a number: the last one, if there are several. -/
def indexIn (insts : Array InstId) (id : InstId) : Option Nat :=
  (insts.toList.reverse.idxOf? id).map fun k => insts.size - k

/-- The nodes of a transfer; none if one of its instructions has no index. -/
def nodesOf (insts : Array InstId) (flow : InstId × InstId) : Option (Nat × Nat) := do
  return (← indexIn insts flow.1, ← indexIn insts flow.2)

/-- The instruction that the virtual node leads to: the first one of the entry block, or for a
    backward graph the last one of the exit block. -/
def entryInst? (f : Function) : Direction → Option InstId
  | .forward => f.entryBlock?.bind Block.first?
  | .backward => f.exitBlock?.bind Block.last?

/-- The node that the virtual node leads to. -/
def entryNode? (f : Function) (direction : Direction) : Option Nat :=
  (entryInst? f direction).bind (indexIn (numbering f))

/-- The ends of the edges between instructions, in order. -/
def flowEnds (f : Function) (direction : Direction) : List (Nat × Nat) :=
  let insts := numbering f
  ((flows f).filterMap fun flow => (nodesOf insts flow).map direction.orient).eraseDups

/-- The graph of a function. -/
def build (f : Function) (direction : Direction) : FlowGraph :=
  let ends := flowEnds f direction
  let entry := (entryNode? f direction).map fun node => (virtualEntry, node)
  { direction := direction
    insts := numbering f
    edges := ((ends ++ entry.toList).zipIdx.map fun e => ⟨e.1.1, e.1.2, e.2⟩).toArray
    entryEdge := entry.map fun _ => ends.length }

/-! ## Queries -/

/-- The number of nodes, the virtual one included. -/
def nodeCount (g : FlowGraph) : Nat := g.insts.size + 1

def edgeCount (g : FlowGraph) : Nat := g.edges.size

/-- The index of the instruction that carries a number. -/
def indexOf? (g : FlowGraph) (id : InstId) : Option Nat := indexIn g.insts id

/-- The number of the instruction at an index. -/
def instAt? (g : FlowGraph) : Nat → Option InstId
  | 0 => none
  | index + 1 => g.insts[index]?

/-- The edges into a node, in order. -/
def incoming (g : FlowGraph) (node : Nat) : List Edge :=
  g.edges.toList.filter fun e => e.target = node

/-- The edges out of a node, in order. -/
def outgoing (g : FlowGraph) (node : Nat) : List Edge :=
  g.edges.toList.filter fun e => e.source = node

def edgeBetween? (g : FlowGraph) (source target : Nat) : Option Edge :=
  (g.outgoing source).find? fun e => e.target = target

/-- The instruction at an index, as `f` has it. -/
def instruction? (g : FlowGraph) (f : Function) (index : Nat) : Option Instruction :=
  (g.instAt? index).bind f.inst?

def blockOf? (g : FlowGraph) (f : Function) (index : Nat) : Option BlockId :=
  (g.instruction? f index).map Instruction.block

/-- The nodes of instructions. -/
def nodes (g : FlowGraph) : List Nat := List.range' 1 g.insts.size

end FlowGraph

end FlowFacts
