import FlowFacts.Analysis.Context
import FlowFacts.Proofs.Agreement
import FlowFacts.Proofs.BuilderRuns
import FlowFacts.Proofs.GraphShape

/-!
# What lookups in a context find

The lookups of a transfer function either fail or say something about the function. These
statements read that off: which instruction an operand refers to, where a group of merges starts,
that the members of a group are merges, and which indices an instruction defines.
-/

namespace FlowFacts

/-- The instruction with an index carries the number that has the index. -/
theorem FlowGraph.instAt?_of_indexOf? {g : FlowGraph} {id : InstId} {k : Nat}
    (h : g.indexOf? id = some k) : g.instAt? k = some id := by
  obtain ⟨j, hj, rfl⟩ := Option.map_eq_some_iff.1 h
  obtain ⟨hlt, hid, -⟩ := List.findIdx?_eq_some_iff_getElem.1 hj
  simp only [List.length_reverse, Array.length_toList] at hlt
  obtain ⟨k, hk⟩ : ∃ k, g.insts.size - j = k + 1 := ⟨g.insts.size - j - 1, by omega⟩
  rw [hk]
  show g.insts[k]? = some id
  rw [List.getElem_reverse, beq_iff_eq] at hid
  rw [← hid, ← Array.getElem?_toList, List.getElem?_eq_some_iff]
  refine ⟨by simp only [Array.length_toList]; omega, ?_⟩
  congr 1
  simp only [Array.length_toList]
  omega

namespace FlowContext

variable {ctx : FlowContext} {inst : Instruction}

/-! ## Operands -/

/-- The operand is the result of the instruction at an index. -/
def Refers (ctx : FlowContext) (operand : Operand) (index : Nat) : Prop :=
  ∃ id, operand = .inst id ∧ ctx.graph.indexOf? id = some index

/-- A lookup that succeeds finds the index that the operand refers to. -/
theorem refers_iff {operand : Operand} {found : Option Nat} (h : ctx.tracked operand = .ok found)
    {index : Nat} : ctx.Refers operand index ↔ found = some index := by
  unfold tracked at h
  cases operand with
  | inst id =>
    simp only [Operand.inst?] at h
    cases hindex : ctx.graph.indexOf? id with
    | none => simp [hindex] at h
    | some i =>
      simp only [hindex, Except.ok.injEq] at h
      simp [Refers, hindex, ← h]
  | arg | const | global | null | undefined =>
    simp only [Operand.inst?, Except.ok.injEq] at h
    simp [Refers, ← h]

theorem tracked_of_refers {operand : Operand} {index : Nat} (h : ctx.Refers operand index) :
    ctx.tracked operand = .ok (some index) := by
  obtain ⟨id, rfl, hindex⟩ := h
  simp [tracked, Operand.inst?, hindex]

theorem tracked_mem_nodes {operand : Operand} {index : Nat}
    (h : ctx.tracked operand = .ok (some index)) : index ∈ ctx.graph.nodes := by
  obtain ⟨id, -, hindex⟩ := (refers_iff h).2 rfl
  exact FlowGraph.indexOf?_mem_nodes hindex

/-- The operand at a position is the result of the instruction at an index. -/
def OperandAt (ctx : FlowContext) (inst : Instruction) (position index : Nat) : Prop :=
  ∃ operand, inst.operand? position = some operand ∧ ctx.Refers operand index

/-! ## Merges -/

/-- The instruction is a merge and the first instruction of its block. -/
def IsHead (ctx : FlowContext) (inst : Instruction) : Prop :=
  inst.isMerge = true ∧
    ∃ blk, ctx.function.block? inst.block = some blk ∧ blk.first? = some inst.id

theorem isHead_iff {head : Bool} (h : ctx.isGroupHead inst = .ok head) :
    ctx.IsHead inst ↔ head = true := by
  unfold isGroupHead at h
  cases hmerge : inst.isMerge with
  | false =>
    simp only [hmerge, Bool.false_eq_true, if_false, Except.ok.injEq] at h
    simp [IsHead, hmerge, ← h]
  | true =>
    simp only [hmerge, if_true] at h
    cases hblock : ctx.function.block? inst.block with
    | none => simp [hblock] at h
    | some blk =>
      simp only [hblock, Except.ok.injEq] at h
      simp [IsHead, hmerge, hblock, ← h]

theorem mergesOf_indexOf? {ids : List InstId} {group : List (Nat × Instruction)}
    (h : ctx.mergesOf ids = .ok group) :
    ∀ p ∈ group, (∃ id, ctx.function.inst? id = some p.2) ∧ p.2.isMerge = true ∧
      ctx.graph.indexOf? p.2.id = some p.1 := by
  induction ids generalizing group with
  | nil => cases h; simp
  | cons id rest ih =>
    unfold mergesOf at h
    split at h
    · cases h
    · next inst hinst =>
      split at h
      · next hmerge =>
        obtain ⟨index, hindex, h⟩ := bind_eq_ok h
        obtain ⟨merges, hmerges, h⟩ := bind_eq_ok h
        cases h
        rw [List.forall_mem_cons]
        refine ⟨⟨⟨id, hinst⟩, hmerge, ?_⟩, ih hmerges⟩
        unfold indexOf at hindex
        split at hindex
        · next k hk =>
          cases hindex
          exact hk
        · cases hindex
      · cases h; simp

/-- The members of a group are merges of the function, each with its own index. -/
theorem mergeGroup_indexOf? {block : BlockId} {group : List (Nat × Instruction)}
    (h : ctx.mergeGroup block = .ok group) :
    ∀ p ∈ group, (∃ id, ctx.function.inst? id = some p.2) ∧ p.2.isMerge = true ∧
      ctx.graph.indexOf? p.2.id = some p.1 := by
  unfold mergeGroup at h
  split at h
  · cases h
  · exact mergesOf_indexOf? h

theorem mergeGroup_mem_nodes {block : BlockId} {group : List (Nat × Instruction)}
    (h : ctx.mergeGroup block = .ok group) : ∀ p ∈ group, p.1 ∈ ctx.graph.nodes := by
  intro p hp
  obtain ⟨-, -, hindex⟩ := mergeGroup_indexOf? h p hp
  exact FlowGraph.indexOf?_mem_nodes hindex

/-- If instructions carry their numbers, the members of a group are found at their indices. -/
theorem mergeGroup_instruction? (hnumbered : ctx.function.Numbered) {block : BlockId}
    {group : List (Nat × Instruction)} (h : ctx.mergeGroup block = .ok group) :
    ∀ p ∈ group, ctx.instruction? p.1 = some p.2 ∧ p.2.isMerge = true := by
  intro p hp
  obtain ⟨⟨id, hinst⟩, hmerge, hindex⟩ := mergeGroup_indexOf? h p hp
  refine ⟨?_, hmerge⟩
  show (ctx.graph.instAt? p.1).bind ctx.function.inst? = some p.2
  rw [FlowGraph.instAt?_of_indexOf? hindex, Option.bind_some, hnumbered hinst, hinst]

/-! ## Definitions -/

section Definitions

variable {n d : Nat} {group : List (Nat × Instruction)}

/-- The instruction `inst` at node `n` defines the index `d`: it is no merge and has a result, which
    carries its own index, or it is the head of a group of merges to which `d` belongs. -/
inductive Defines (ctx : FlowContext) (inst : Instruction) (n d : Nat) : Prop
  | result : inst.isMerge = false → inst.opcode.isValueDefining = true → d = n →
      Defines ctx inst n d
  | group {group : List (Nat × Instruction)} : ctx.IsHead inst →
      ctx.mergeGroup inst.block = .ok group → d ∈ group.map Prod.fst → Defines ctx inst n d

theorem defines_ordinary (h : inst.isMerge = false) :
    ctx.Defines inst n d ↔ inst.opcode.isValueDefining = true ∧ d = n := by
  constructor
  · rintro (⟨-, hdef, hd⟩ | ⟨⟨hmerge, -⟩, -, -⟩)
    · exact ⟨hdef, hd⟩
    · simp [h] at hmerge
  · rintro ⟨hdef, hd⟩
    exact .result h hdef hd

theorem defines_head (h : ctx.IsHead inst) (hgroup : ctx.mergeGroup inst.block = .ok group) :
    ctx.Defines inst n d ↔ d ∈ group.map Prod.fst := by
  constructor
  · rintro (⟨hordinary, -, -⟩ | ⟨-, hgroup', hd⟩)
    · simp [h.1] at hordinary
    · rw [hgroup] at hgroup'
      cases hgroup'
      exact hd
  · exact .group h hgroup

/-- A merge that is not the first instruction of its block defines nothing. -/
theorem not_defines (hmerge : inst.isMerge = true) (h : ¬ ctx.IsHead inst) :
    ¬ ctx.Defines inst n d := by
  rintro (⟨hordinary, -, -⟩ | ⟨hhead, -, -⟩)
  · simp [hmerge] at hordinary
  · exact h hhead

end Definitions

end FlowContext

end FlowFacts
