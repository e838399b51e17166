import FlowFacts.Program.Opcode
import FlowFacts.Program.Operand

/-!
# Instructions

One record serves every opcode: `incoming` matters for merges and `targets` for terminators.
-/

namespace FlowFacts

/-- An instruction of a function, with the block that it lies in. A merge has a block that each
    operand is `incoming` from, and a terminator the `targets` that control may go to. -/
structure Instruction where
  id : InstId
  name : Option String
  opcode : Opcode
  operands : List Operand
  incoming : List BlockId
  targets : List BlockId
  block : BlockId
deriving DecidableEq

namespace Instruction

/-- Whether the instruction ends its block. -/
def isTerminator (inst : Instruction) : Bool := inst.opcode.isTerminator

def isMerge (inst : Instruction) : Bool := inst.opcode.isMerge

def operand? (inst : Instruction) (position : Nat) : Option Operand := inst.operands[position]?

/-- The operands of a merge, each with the block it arrives from. -/
def incomingPairs (inst : Instruction) : List (Operand × BlockId) :=
  inst.operands.zip inst.incoming

/-- The operand a merge takes when control arrives from `pred`. -/
def incomingFor? (inst : Instruction) (pred : BlockId) : Option Operand :=
  (inst.incomingPairs.find? fun p => p.2 = pred).map Prod.fst

end Instruction

end FlowFacts
