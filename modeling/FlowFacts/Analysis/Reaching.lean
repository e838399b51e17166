import FlowFacts.Analysis.Basic
import FlowFacts.Fact.IndexSet

/-!
# Reaching definitions

A forward analysis: an index reaches an edge if its instruction may have run before. Every index
is one place of definition, so no definition takes another one away.
-/

namespace FlowFacts.Reaching

/-- The definitions that reach the end of an instruction. -/
def extend (ctx : FlowContext) (inst : Instruction) (index : Nat) (reaching : IndexSet) :
    Except FlowFault IndexSet := do
  if inst.isMerge then
    if ← ctx.isGroupHead inst then
      let group ← ctx.mergeGroup inst.block
      return group.foldl (fun reaching merge => reaching.insert merge.1) reaching
    else return reaching
  else if inst.opcode.isValueDefining then return reaching.insert index
  else return reaching

/-- The definitions that reach each outgoing edge. -/
def transfer (ctx : FlowContext) (inst : Instruction) (index : Nat) (reaching : IndexSet)
    (outs : List Edge) : Except FlowFault (List IndexSet) := do
  let reaching ← extend ctx inst index reaching
  return List.replicate outs.length reaching

def analysis : Analysis IndexSet where
  name := "reaching-definitions"
  direction := .forward
  initial := .empty
  height g := g.insts.size
  transfer := transfer

end FlowFacts.Reaching
