import FlowFacts.Analysis.Basic
import FlowFacts.Fact.PointsTo

/-!
# Points-to

A forward analysis of what values and memory objects may point to. A cast makes its result an
exact alias; every other rule only adds targets. In particular a store keeps what its slots held
before.
-/

namespace FlowFacts.Pointer

/-- The index of the instruction that the operand at a position refers to. -/
def trackedOperand (ctx : FlowContext) (inst : Instruction) (position : Nat) :
    Except FlowFault (Option Nat) := do
  ctx.tracked (← FlowContext.operand inst position)

/-- Adds the targets of the value at an index, if there is one, to those of `l`. -/
def absorbValue (m : PointsTo) (l : Location) : Option Nat → PointsTo
  | some index => m.absorb l (.value index)
  | none => m

/-- A load: the result may point to whatever the objects behind the pointer point to. -/
def load (m : PointsTo) (result pointer : Nat) : PointsTo :=
  ((m.targets (.value pointer)).items.filter Location.isMemory).foldl
    (fun m object => m.absorb (.value result) object) m

/-- A store: each slot behind the pointer may point to each target of the value. -/
def store (m : PointsTo) (value pointer : Nat) : PointsTo :=
  let stored := (m.targets (.value value)).items
  (m.targets (.value pointer)).items.foldl
    (fun m slot => stored.foldl (fun m target => m.add slot target) m) m

/-- A merge: its result may point to whatever its operands point to. -/
def crossMerge (ctx : FlowContext) (m : PointsTo) (merge : Nat × Instruction) :
    Except FlowFault PointsTo :=
  merge.2.incomingPairs.foldlM
    (fun m p => do return absorbValue m (.value merge.1) (← ctx.tracked p.1)) m

/-- What locations may point to after an instruction. -/
def apply (ctx : FlowContext) (inst : Instruction) (index : Nat) (m : PointsTo) :
    Except FlowFault PointsTo := do
  match inst.opcode with
  | .alloca => return m.add (.value index) (.memory index)
  | .bitcast | .getelementptr =>
    match ← trackedOperand ctx inst 0 with
    | some source => return m.aliasOf (.value index) (.value source)
    | none => return m
  | .load =>
    match ← trackedOperand ctx inst 0 with
    | some pointer => return load m index pointer
    | none => return m
  | .store =>
    let value ← trackedOperand ctx inst 0
    let pointer ← trackedOperand ctx inst 1
    match value, pointer with
    | some value, some pointer => return store m value pointer
    | _, _ => return m
  | .select =>
    let m := absorbValue m (.value index) (← trackedOperand ctx inst 1)
    return absorbValue m (.value index) (← trackedOperand ctx inst 2)
  | .phi =>
    let group ← ctx.mergeGroup inst.block
    group.foldlM (crossMerge ctx) m
  | _ => return m

/-- What locations may point to on each outgoing edge. Of a group of merges only the head acts. -/
def transfer (ctx : FlowContext) (inst : Instruction) (index : Nat) (m : PointsTo)
    (outs : List Edge) : Except FlowFault (List PointsTo) := do
  if inst.isMerge then
    if ← ctx.isGroupHead inst then
      let m ← apply ctx inst index m
      return List.replicate outs.length m
    else return List.replicate outs.length m
  else
    let m ← apply ctx inst index m
    return List.replicate outs.length m

def analysis : Analysis PointsTo where
  name := "points-to"
  direction := .forward
  initial := .empty
  height g := 2 * g.insts.size * g.insts.size
  transfer := transfer

end FlowFacts.Pointer
