import FlowFacts.Proofs.OrderIndependence
import Mathlib.Logic.Equiv.Basic

/-!
# Renumbered functions

The number of an instruction is its slot in the table of the function, so other numbers mean another
table. `Function.renumber` moves the instructions and replaces every mention of a number. The order
of blocks and of instructions inside them stays, and the indices in a graph count in this order.

Main results:

* `Function.renumbers_renumber`: a new number names the instruction that the old one named.
* `FlowGraph.build_renumbers`: the graphs of both functions have the same edges.
-/

namespace FlowFacts

/-! ## Programs -/

section Renumber

variable (σ : InstId → InstId)

/-- The operand with the number of the instruction that it refers to replaced. -/
def Operand.renumber : Operand → Operand
  | inst id => inst (σ id)
  | operand => operand

/-- The instruction with all numbers of instructions replaced. -/
def Instruction.renumber (inst : Instruction) : Instruction :=
  { inst with id := σ inst.id, operands := inst.operands.map (Operand.renumber σ) }

/-- The block with all numbers of instructions replaced. -/
def Block.renumber (block : Block) : Block :=
  { block with instructions := block.instructions.map σ }

end Renumber

namespace Function

/-- A permutation of the numbers that name an instruction of the function. Other numbers stay. -/
structure Renumbering (f : Function) where
  /-- The new number for each old one. -/
  perm : Equiv.Perm InstId
  /-- A number without an instruction is its own new number. -/
  fixed : ∀ id, f.inst? id = none → perm id = id

namespace Renumbering

variable {f : Function} (ρ : f.Renumbering)

theorem inst?_perm_eq_none_iff (id : InstId) : f.inst? (ρ.perm id) = none ↔ f.inst? id = none := by
  constructor
  · intro h
    rwa [ρ.perm.injective (ρ.fixed _ h)] at h
  · intro h
    rwa [ρ.fixed id h]

theorem slot_symm_lt {k : Nat} (hk : k < f.insts.size) (hword : k < UInt32.size) :
    (ρ.perm.symm (.ofSlot k)).slot < f.insts.size := by
  have hsome : f.inst? (.ofSlot k) ≠ none := by
    rw [inst?, InstId.slot_ofSlot hword, Ne, Array.getElem?_eq_none_iff]
    omega
  rw [← ρ.perm.apply_symm_apply (.ofSlot k), Ne, inst?_perm_eq_none_iff, inst?,
    Array.getElem?_eq_none_iff] at hsome
  omega

/-- The slot that the instruction of a new slot comes from. Slots that no number names stay. -/
def origin (k : Fin f.insts.size) : Fin f.insts.size :=
  if hword : k < UInt32.size then ⟨_, ρ.slot_symm_lt k.isLt hword⟩ else k

end Renumbering

/-- The function with every instruction moved to the slot of its new number, and the new numbers in
    place of the old ones everywhere. -/
def renumber (f : Function) (ρ : f.Renumbering) : Function :=
  { f with
    blocks := f.blocks.mapWithKey fun _ block => block.renumber ρ.perm
    insts := Array.ofFn fun k : Fin f.insts.size => f.insts[ρ.origin k].renumber ρ.perm }

/-- One function is another one with other numbers: the blocks list the new numbers in the old
    order, and a new number names what the old one named. -/
structure Renumbers (σ : Equiv.Perm InstId) (f g : Function) : Prop where
  name : g.name = f.name
  blocks : g.blocks = f.blocks.mapWithKey fun _ block => block.renumber σ
  inst? : ∀ id, g.inst? (σ id) = (f.inst? id).map (Instruction.renumber σ)

theorem renumbers_renumber (f : Function) (ρ : f.Renumbering) :
    Renumbers ρ.perm f (f.renumber ρ) where
  name := rfl
  blocks := rfl
  inst? id := by
    have hsize : (f.renumber ρ).insts.size = f.insts.size := Array.size_ofFn
    cases hinst : f.inst? id with
    | none =>
      rw [ρ.fixed id hinst, Option.map_none, Function.inst?, Array.getElem?_eq_none_iff, hsize]
      exact Array.getElem?_eq_none_iff.1 hinst
    | some inst =>
      have hslot : (ρ.perm id).slot < f.insts.size := by
        rw [← Nat.not_le, ← Array.getElem?_eq_none_iff]
        intro hnone
        rw [(ρ.inst?_perm_eq_none_iff id).1 hnone] at hinst
        cases hinst
      have horigin : (ρ.origin ⟨(ρ.perm id).slot, hslot⟩).val = id.slot := by
        have hword : (ρ.perm id).slot < UInt32.size := UInt32.toNat_lt_size _
        rw [Renumbering.origin, dif_pos hword]
        simp only [InstId.ofSlot_slot, Equiv.symm_apply_apply]
      obtain ⟨hlt, hget⟩ := Array.getElem?_eq_some_iff.1 hinst
      rw [Function.inst?, Array.getElem?_eq_getElem (hsize ▸ hslot)]
      simp only [renumber, Array.getElem_ofFn, Option.map_some, Fin.getElem_fin, horigin,
        hget]

end Function

/-! ## Blocks and instructions -/

section

variable {σ : InstId → InstId}

@[simp] theorem Block.first?_renumber (block : Block) :
    (block.renumber σ).first? = block.first?.map σ := List.head?_map

@[simp] theorem Block.last?_renumber (block : Block) :
    (block.renumber σ).last? = block.last?.map σ := List.getLast?_map

@[simp] theorem Instruction.id_renumber (inst : Instruction) :
    (inst.renumber σ).id = σ inst.id := rfl

@[simp] theorem Instruction.block_renumber (inst : Instruction) :
    (inst.renumber σ).block = inst.block := rfl

@[simp] theorem Instruction.opcode_renumber (inst : Instruction) :
    (inst.renumber σ).opcode = inst.opcode := rfl

@[simp] theorem Instruction.isMerge_renumber (inst : Instruction) :
    (inst.renumber σ).isMerge = inst.isMerge := rfl

theorem Operand.inst?_renumber (operand : Operand) :
    (operand.renumber σ).inst? = operand.inst?.map σ := by
  cases operand <;> rfl

theorem Instruction.operand?_renumber (inst : Instruction) (position : Nat) :
    (inst.renumber σ).operand? position = (inst.operand? position).map (Operand.renumber σ) :=
  List.getElem?_map

theorem Instruction.incomingPairs_renumber (inst : Instruction) :
    (inst.renumber σ).incomingPairs =
      inst.incomingPairs.map fun p => (p.1.renumber σ, p.2) :=
  List.zip_map_left

theorem Instruction.incomingFor?_renumber (inst : Instruction) (pred : BlockId) :
    (inst.renumber σ).incomingFor? pred = (inst.incomingFor? pred).map (Operand.renumber σ) := by
  rw [incomingFor?, incomingFor?, incomingPairs_renumber, List.find?_map, Option.map_map,
    Option.map_map]
  rfl

end

namespace Function.Renumbers

variable {σ : Equiv.Perm InstId} {f g : Function} (h : Renumbers σ f g)

include h

theorem values_blocks : g.blocks.values = f.blocks.values.map (Block.renumber σ) := by
  rw [h.blocks, OrderedMap.values, OrderedMap.values, OrderedMap.mapWithKey, List.map_map,
    List.map_map]
  rfl

theorem block? (id : BlockId) : g.block? id = (f.block? id).map (Block.renumber σ) := by
  rw [Function.block?, h.blocks, OrderedMap.get?_mapWithKey]
  rfl

theorem instructionsOf (block : Block) :
    g.instructionsOf (block.renumber σ) =
      (f.instructionsOf block).map (Instruction.renumber σ) := by
  rw [Function.instructionsOf, Function.instructionsOf, Block.renumber, List.filterMap_map,
    List.map_filterMap]
  exact congrArg (List.filterMap · _) (funext h.inst?)

theorem instructions : g.instructions = f.instructions.map (Instruction.renumber σ) := by
  rw [Function.instructions, Function.instructions, h.values_blocks, List.flatMap_map,
    List.map_flatMap]
  exact congrArg (List.flatMap · _) (funext h.instructionsOf)

end Function.Renumbers

/-! ## Graphs -/

namespace FlowGraph

/-- The graph with the new numbers at the same indices. -/
def renumber (σ : InstId → InstId) (g : FlowGraph) : FlowGraph := { g with insts := g.insts.map σ }

section

variable {σ : InstId → InstId} (g : FlowGraph)

@[simp] theorem size_insts_renumber : (g.renumber σ).insts.size = g.insts.size := Array.size_map

@[simp] theorem nodes_renumber : (g.renumber σ).nodes = g.nodes := by
  rw [nodes, nodes, size_insts_renumber]

theorem instAt?_renumber (n : Nat) : (g.renumber σ).instAt? n = (g.instAt? n).map σ := by
  cases n with
  | zero => rfl
  | succ n => exact Array.getElem?_map

theorem neighbours_map {α β : Type} (h : α → β) (xs : List α) :
    neighbours (xs.map h) = (neighbours xs).map (Prod.map h h) := by
  rw [neighbours, neighbours, ← List.map_tail, List.zip_map]

end

section

variable {σ : Equiv.Perm InstId}

/-- A new number has the index of the old one. -/
theorem indexIn_map (insts : Array InstId) (id : InstId) :
    indexIn (insts.map σ) (σ id) = indexIn insts id := by
  have heq : ((· == σ id) ∘ σ) = (· == id) := by
    funext x
    simp
  rw [indexIn, indexIn, Array.toList_map, ← List.map_reverse, List.idxOf?, List.findIdx?_map, heq,
    Array.size_map]
  rfl

theorem nodesOf_map (insts : Array InstId) (flow : InstId × InstId) :
    nodesOf (insts.map σ) (flow.map σ σ) = nodesOf insts flow := by
  rw [nodesOf, nodesOf, Prod.map_fst, Prod.map_snd, indexIn_map, indexIn_map]

variable {f g : Function} (h : f.Renumbers σ g)

include h

theorem isMergeAt_renumbers (id : InstId) : isMergeAt g (σ id) = isMergeAt f id := by
  rw [isMergeAt, isMergeAt, h.inst?, Option.any_map]
  rfl

theorem isTerminatorAt_renumbers (id : InstId) : isTerminatorAt g (σ id) = isTerminatorAt f id := by
  rw [isTerminatorAt, isTerminatorAt, h.inst?, Option.any_map]
  rfl

theorem leadingMerges_renumbers (block : Block) :
    leadingMerges g (block.renumber σ) = (leadingMerges f block).map σ := by
  have hmerge : isMergeAt g ∘ σ = isMergeAt f := funext (isMergeAt_renumbers h)
  rw [leadingMerges, Block.renumber, List.takeWhile_map, hmerge]
  rfl

theorem afterMerges_renumbers (block : Block) :
    afterMerges g (block.renumber σ) = (afterMerges f block).map σ := by
  have hmerge : isMergeAt g ∘ σ = isMergeAt f := funext (isMergeAt_renumbers h)
  rw [afterMerges, Block.renumber, List.dropWhile_map, hmerge]
  rfl

theorem flowsIn_renumbers (block : Block) (first : InstId) :
    flowsIn g (block.renumber σ) (σ first) = (flowsIn f block first).map (Prod.map σ σ) := by
  rw [flowsIn, flowsIn, List.map_filterMap]
  refine List.filterMap_congr fun pred _ => ?_
  rw [h.block?]
  cases f.block? pred with
  | none => rfl
  | some blk =>
    simp only [Option.map_some, Option.bind_some, Block.last?_renumber, Option.map_map]
    rfl

theorem flowsAtMerges_renumbers (block : Block) :
    flowsAtMerges g (block.renumber σ) = (flowsAtMerges f block).map (Prod.map σ σ) := by
  rw [flowsAtMerges, flowsAtMerges, leadingMerges_renumbers h, afterMerges_renumbers h,
    neighbours_map, List.map_append, List.getLast?_map, List.head?_map]
  cases (leadingMerges f block).getLast? with
  | none => rfl
  | some merge =>
    cases (afterMerges f block).head? with
    | none => rfl
    | some next => rfl

theorem flowsInside_renumbers (block : Block) :
    flowsInside g (block.renumber σ) = (flowsInside f block).map (Prod.map σ σ) := by
  rw [flowsInside, flowsInside, afterMerges_renumbers h, neighbours_map, List.filter_map]
  refine congrArg _ (List.filter_congr fun p _ => ?_)
  rw [Function.comp_apply, Prod.map_fst, isTerminatorAt_renumbers h]

theorem flowsOut_renumbers (block : Block) :
    flowsOut g (block.renumber σ) = (flowsOut f block).map (Prod.map σ σ) := by
  rw [flowsOut, flowsOut, Block.last?_renumber]
  cases block.last? with
  | none => rfl
  | some last =>
    simp only [Option.map_some, List.map_filterMap]
    refine List.filterMap_congr fun succ _ => ?_
    rw [h.block?]
    cases f.block? succ with
    | none => rfl
    | some blk =>
      simp only [Option.map_some, Option.bind_some, Block.first?_renumber, Option.map_map]
      rfl

theorem flows_renumbers : flows g = (flows f).map (Prod.map σ σ) := by
  rw [flows, flows, h.values_blocks, List.flatMap_map, List.map_flatMap]
  refine congrArg (List.flatMap · _) (funext fun block => ?_)
  rw [flowsAt, flowsAt, Block.first?_renumber]
  cases block.first? with
  | none => rfl
  | some first =>
    simp only [Option.map_some, List.map_append, flowsIn_renumbers h, flowsAtMerges_renumbers h,
      flowsInside_renumbers h, flowsOut_renumbers h]

theorem numbering_renumbers : numbering g = (numbering f).map σ := by
  rw [numbering, numbering, h.instructions, List.map_map, List.map_toArray, List.map_map]
  rfl

theorem flowEnds_renumbers (direction : Direction) :
    flowEnds g direction = flowEnds f direction := by
  rw [flowEnds, flowEnds, flows_renumbers h, numbering_renumbers h, List.filterMap_map]
  simp only [Function.comp_def, nodesOf_map]

theorem entryInst?_renumbers (direction : Direction) :
    entryInst? g direction = (entryInst? f direction).map σ := by
  cases direction with
  | forward =>
    rw [entryInst?, entryInst?, Function.entryBlock?, h.values_blocks, List.head?_map,
      ← Function.entryBlock?]
    cases f.entryBlock? with
    | none => rfl
    | some block => exact block.first?_renumber
  | backward =>
    rw [entryInst?, entryInst?, Function.exitBlock?, h.values_blocks, List.getLast?_map,
      ← Function.exitBlock?]
    cases f.exitBlock? with
    | none => rfl
    | some block => exact block.last?_renumber

theorem entryNode?_renumbers (direction : Direction) :
    entryNode? g direction = entryNode? f direction := by
  rw [entryNode?, entryNode?, entryInst?_renumbers h, numbering_renumbers h]
  cases entryInst? f direction with
  | none => rfl
  | some id => exact indexIn_map _ _

/-- New numbers change nothing about a graph but the numbers at its indices. -/
theorem build_renumbers (direction : Direction) :
    build g direction = (build f direction).renumber σ := by
  rw [build, build, numbering_renumbers h, flowEnds_renumbers h, entryNode?_renumbers h]
  rfl

end

end FlowGraph

end FlowFacts
