import FlowFacts.Graph.Basic

/-!
# What a transfer function sees

A `FlowContext` is a function together with a graph. Its lookups fail with a `FlowFault` when the
function does not have what an analysis needs.
-/

namespace FlowFacts

/-- One way in which a function is unfit for an analysis. -/
inductive FlowFault where
  | unplacedOperand (inst : InstId)
  | missingOperand (opcode : Opcode) (inst : InstId) (position : Nat)
  | noIndex (inst : InstId)
  | unknownBlock (block : BlockId)
  | unknownInstruction (inst : InstId)
  | noOwningBlock (node : Nat)
  | noInstruction (node : Nat)
  | arity (analysis : String) (produced expected node : Nat)
  | other (message : String)
deriving DecidableEq

def FlowFault.message : FlowFault → String
  | .unplacedOperand inst => "operand " ++ inst.text ++ " is not a placed instruction"
  | .missingOperand opcode inst position =>
    opcode.name ++ " " ++ inst.text ++ " has no operand " ++ toString position
  | .noIndex inst => "instruction " ++ inst.text ++ " has no index"
  | .unknownBlock block => "unknown block " ++ block.text
  | .unknownInstruction inst => "unknown instruction " ++ inst.text
  | .noOwningBlock node => "edge target " ++ toString node ++ " has no owning block"
  | .noInstruction node => "no instruction at index " ++ toString node
  | .arity analysis produced expected node =>
    analysis ++ " produced " ++ toString produced ++ " values for " ++ toString expected ++
      " outgoing edges at index " ++ toString node
  | .other message => message

/-- Why an analysis has no answer: the function is unfit for it, or the facts kept growing beyond
    the height that the analysis declares. -/
inductive FlowError where
  | malformed (function : String) (fault : FlowFault)
  | unsettled (function analysis : String)
deriving DecidableEq

def FlowError.message : FlowError → String
  | .malformed function fault => "Malformed input in " ++ function ++ ": " ++ fault.message
  | .unsettled function analysis => analysis ++ " does not settle in " ++ function

/-- A function with a graph, which is usually, but not always, the graph of the function. -/
structure FlowContext where
  function : Function
  graph : FlowGraph

namespace FlowContext

/-- The error for a fault found in this context. -/
def malformed (ctx : FlowContext) (fault : FlowFault) : FlowError :=
  .malformed ctx.function.name fault

def instruction? (ctx : FlowContext) (index : Nat) : Option Instruction :=
  ctx.graph.instruction? ctx.function index

def blockOf? (ctx : FlowContext) (index : Nat) : Option BlockId :=
  ctx.graph.blockOf? ctx.function index

/-- The index of the instruction that an operand refers to; other operands have none. -/
def tracked (ctx : FlowContext) (operand : Operand) : Except FlowFault (Option Nat) :=
  match operand.inst? with
  | none => .ok none
  | some id =>
    match ctx.graph.indexOf? id with
    | some index => .ok (some index)
    | none => .error (.unplacedOperand id)

def operand (inst : Instruction) (position : Nat) : Except FlowFault Operand :=
  match inst.operand? position with
  | some operand => .ok operand
  | none => .error (.missingOperand inst.opcode inst.id position)

def indexOf (ctx : FlowContext) (inst : Instruction) : Except FlowFault Nat :=
  match ctx.graph.indexOf? inst.id with
  | some index => .ok index
  | none => .error (.noIndex inst.id)

/-- The merges at the start of a list of instructions, with their indices. -/
def mergesOf (ctx : FlowContext) : List InstId → Except FlowFault (List (Nat × Instruction))
  | [] => .ok []
  | id :: rest =>
    match ctx.function.inst? id with
    | none => .error (.unknownInstruction id)
    | some inst =>
      if inst.isMerge then do
        let index ← ctx.indexOf inst
        let group ← ctx.mergesOf rest
        return (index, inst) :: group
      else .ok []

/-- The merges at the start of a block, with their indices. -/
def mergeGroup (ctx : FlowContext) (block : BlockId) :
    Except FlowFault (List (Nat × Instruction)) :=
  match ctx.function.block? block with
  | none => .error (.unknownBlock block)
  | some blk => ctx.mergesOf blk.instructions

/-- Whether an instruction is the first of its block and a merge. The whole group of merges is
    dealt with there. -/
def isGroupHead (ctx : FlowContext) (inst : Instruction) : Except FlowFault Bool :=
  if inst.isMerge then
    match ctx.function.block? inst.block with
    | none => .error (.unknownBlock inst.block)
    | some blk => .ok (blk.first? = some inst.id)
  else .ok false

end FlowContext

end FlowFacts
