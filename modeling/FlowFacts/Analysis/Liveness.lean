import FlowFacts.Analysis.Basic
import FlowFacts.Fact.IndexSet

/-!
# Liveness

A backward analysis: an index is live on an edge if its value may be read later, before it is
defined again. At the head of a merge group every outgoing edge leads to one predecessor, which
sees only the values that the merges take from it. Merges are dealt with one after the other, so
a later merge of the group hides that an earlier one reads it.
-/

namespace FlowFacts.Liveness

/-- Makes the instruction that an operand refers to live. -/
def use (ctx : FlowContext) (live : IndexSet) (operand : Operand) : Except FlowFault IndexSet := do
  match ← ctx.tracked operand with
  | some index => return live.insert index
  | none => return live

/-- Crosses one merge towards the predecessor `pred`: its result dies and the value it takes from
    there becomes live. -/
def crossMerge (ctx : FlowContext) (pred : BlockId) (live : IndexSet) (merge : Nat × Instruction) :
    Except FlowFault IndexSet :=
  let live := live.erase merge.1
  match merge.2.incomingFor? pred with
  | some operand => use ctx live operand
  | none => .ok live

/-- Crosses a group of merges along an edge. -/
def crossGroup (ctx : FlowContext) (group : List (Nat × Instruction)) (live : IndexSet)
    (edge : Edge) : Except FlowFault IndexSet :=
  match ctx.blockOf? edge.target with
  | none => .error (.noOwningBlock edge.target)
  | some pred => group.foldlM (crossMerge ctx pred) live

/-- Crosses an instruction that is no merge: its result dies if it is a definition, and the
    instructions that it reads become live. -/
def cross (ctx : FlowContext) (inst : Instruction) (index : Nat) (live : IndexSet) :
    Except FlowFault IndexSet :=
  inst.operands.foldlM (use ctx) (if inst.opcode.isValueDefining then live.erase index else live)

/-- What is live on each outgoing edge. -/
def transfer (ctx : FlowContext) (inst : Instruction) (index : Nat) (live : IndexSet)
    (outs : List Edge) : Except FlowFault (List IndexSet) := do
  if inst.isMerge then
    if ← ctx.isGroupHead inst then
      let group ← ctx.mergeGroup inst.block
      outs.mapM (crossGroup ctx group live)
    else return List.replicate outs.length live
  else
    let live ← cross ctx inst index live
    return List.replicate outs.length live

def analysis : Analysis IndexSet where
  name := "liveness"
  direction := .backward
  initial := .empty
  height g := g.insts.size
  transfer := transfer

end FlowFacts.Liveness
