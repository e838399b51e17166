import FlowFacts.Proofs.Arrangement

/-!
# Functions that builders hand over

A builder hands over a function exactly if it was used as it should be: nothing was appended
without a current block, every terminator was one, and in the end each block has its merges in
front and one terminator at the end and every block that is named exists. Blocks may be filled in
any order and steps may fail in between.

Main results:

* `Builder.consistent_run`: what a run of steps keeps to.
* `Builder.faults_run_eq_nil_iff`: when no fault is noted.
* `Builder.build_run`: when the function is handed over, and what it is like.
-/

namespace FlowFacts

/-! ## What a step does -/

namespace Builder

variable {b b' : Builder} {name : String} {steps : List Step} {s : Step}

/-- What the instruction that a step appends says, if it appends one: opcode, operands, blocks that
    operands arrive from, and targets. -/
def Step.contents? : Step → Option (Opcode × List Operand × List BlockId × List BlockId)
  | .append opcode operands => some (opcode, operands, [], [])
  | .appendMerge incoming => some (.phi, incoming.map Prod.fst, incoming.map Prod.snd, [])
  | .appendTerminator opcode operands targets => some (opcode, operands, [], targets)
  | _ => none

/-- The label of the block that a step creates, if it creates one. -/
def Step.newLabel? : Step → Option String
  | .createBlock label | .block label => some label
  | _ => none

/-- The step does not ask for a terminator that is none. -/
def Step.Terminates : Step → Prop
  | .appendTerminator opcode _ _ => opcode.isTerminator = true
  | _ => True

theorem push_of_current_none (h : b.current = none) (opcode : Opcode) (operands : List Operand)
    (incoming targets : List BlockId) :
    b.push opcode operands incoming targets = b.note (.noCurrentBlock opcode) := by
  unfold push
  rw [h]

theorem push_of_current_some {id : BlockId} (h : b.current = some id) (opcode : Opcode)
    (operands : List Operand) (incoming targets : List BlockId) :
    b.push opcode operands incoming targets =
      ⟨place b.function ⟨b.nextInst, none, opcode, operands, incoming, targets, id⟩, some id,
        b.faults ++ (b.placementFault? id opcode).toList⟩ := by
  unfold push
  rw [h]

theorem run_concat (b : Builder) (steps : List Step) (s : Step) :
    b.run (steps ++ [s]) = ((b.run steps).step s).toOption.getD (b.run steps) := by
  unfold run
  rw [List.foldl_append]
  rfl

theorem sizes_le_push (b : Builder) (opcode : Opcode) (operands : List Operand)
    (incoming targets : List BlockId) :
    b.function.blocks.size ≤ (b.push opcode operands incoming targets).function.blocks.size ∧
      b.function.insts.size ≤ (b.push opcode operands incoming targets).function.insts.size := by
  cases hcurrent : b.current with
  | none =>
    rw [push_of_current_none hcurrent]
    exact ⟨Nat.le_refl _, Nat.le_refl _⟩
  | some id =>
    rw [push_of_current_some hcurrent]
    dsimp only
    rw [Function.Arranged.size_place]
    exact ⟨Nat.le_refl _, by simp [place]⟩

/-- Nothing that was built goes away. -/
theorem sizes_le_step (h : b.step s = .ok b') :
    b.function.blocks.size ≤ b'.function.blocks.size ∧
      b.function.insts.size ≤ b'.function.insts.size := by
  cases s with
  | param name =>
    cases h
    exact ⟨Nat.le_refl _, Nat.le_refl _⟩
  | createBlock label | block label =>
    cases h
    exact ⟨b.size_le_createBlock label, Nat.le_refl _⟩
  | switchTo id =>
    simp only [step, switchTo] at h
    split_ifs at h
    cases h
    exact ⟨Nat.le_refl _, Nat.le_refl _⟩
  | setName id name =>
    cases h
    exact ⟨Nat.le_refl _, by simp [setName]⟩
  | append opcode operands | appendMerge incoming =>
    cases h
    exact b.sizes_le_push _ _ _ _
  | appendTerminator opcode operands targets =>
    cases h
    unfold appendTerminator
    split_ifs
    · exact b.sizes_le_push _ _ _ _
    · exact (b.note (.notTerminator opcode)).sizes_le_push _ _ _ _

theorem sizes_le_run_concat (b : Builder) (steps : List Step) (s : Step) :
    (b.run steps).function.blocks.size ≤ (b.run (steps ++ [s])).function.blocks.size ∧
      (b.run steps).function.insts.size ≤ (b.run (steps ++ [s])).function.insts.size := by
  rw [run_concat]
  cases hs : (b.run steps).step s with
  | error e => exact ⟨Nat.le_refl _, Nat.le_refl _⟩
  | ok b' => exact sizes_le_step hs

/-! ## What every run keeps -/

/-- Blocks and table agree, the current block exists, and apart from what was noted only merges
    have incoming blocks and only terminators have targets. -/
structure Consistent (b : Builder) : Prop where
  arranged : b.function.Arranged
  current : ∀ id ∈ b.current, id ∈ b.function.blocks.keys
  incoming : ∀ inst ∈ b.function.insts, inst.incoming ≠ [] → inst.isMerge = true
  targets : b.faults = [] → ∀ inst ∈ b.function.insts, inst.targets ≠ [] → inst.isTerminator = true

namespace Consistent

theorem fresh (name : String) : (Builder.fresh name).Consistent where
  arranged := .fresh name
  current := by simp [Builder.fresh]
  incoming := by simp [Builder.fresh, Function.fresh]
  targets := by simp [Builder.fresh, Function.fresh]

theorem note (h : b.Consistent) (fault : BuildFault) : (b.note fault).Consistent where
  arranged := h.arranged
  current := h.current
  incoming := h.incoming
  targets := by simp [Builder.note]

theorem push (h : b.Consistent) {opcode : Opcode} {operands : List Operand}
    {incoming targets : List BlockId} (hincoming : incoming ≠ [] → opcode.isMerge = true)
    (htargets : b.faults = [] → targets ≠ [] → opcode.isTerminator = true) :
    (b.push opcode operands incoming targets).Consistent := by
  cases hcurrent : b.current with
  | none =>
    rw [push_of_current_none hcurrent]
    exact h.note _
  | some id =>
    rw [push_of_current_some hcurrent]
    have hid := h.current id hcurrent
    refine ⟨h.arranged.place rfl hid, ?_, ?_, ?_⟩
    · rintro _ ⟨⟩
      rw [Function.Arranged.keys_place]
      exact hid
    · intro inst hinst
      simp only [place, Array.mem_push] at hinst
      rcases hinst with hinst | rfl
      · exact h.incoming inst hinst
      · exact hincoming
    · intro hfaults inst hinst
      have hnone := (List.append_eq_nil_iff.1 hfaults).1
      simp only [place, Array.mem_push] at hinst
      rcases hinst with hinst | rfl
      · exact h.targets hnone inst hinst
      · exact htargets hnone

theorem step (h : b.Consistent) (hs : b.step s = .ok b')
    (hfew : b'.function.blocks.size < UInt32.size) : b'.Consistent := by
  have hfew' : b.function.blocks.size < UInt32.size :=
    Nat.lt_of_le_of_lt (sizes_le_step hs).1 hfew
  cases s with
  | param name =>
    cases hs
    exact ⟨⟨h.arranged.keys, h.arranged.ids, h.arranged.numbered, h.arranged.listed,
      h.arranged.housed⟩, h.current, h.incoming, h.targets⟩
  | createBlock label =>
    cases hs
    refine ⟨h.arranged.createBlock hfew' label, fun id hid => ?_, h.incoming, h.targets⟩
    unfold OrderedMap.keys
    rw [h.arranged.entries_createBlock hfew' label, List.map_append]
    exact List.mem_append_left _ (h.current id hid)
  | block label =>
    cases hs
    refine ⟨h.arranged.createBlock hfew' label, ?_, h.incoming, h.targets⟩
    rintro _ ⟨⟩
    show _ ∈ (b.createBlock label).function.blocks.entries.map Prod.fst
    rw [h.arranged.entries_createBlock hfew' label, List.map_append]
    exact List.mem_append_right _ (by simp)
  | switchTo id =>
    simp only [Builder.step, switchTo] at hs
    split_ifs at hs with hcontains
    cases hs
    refine ⟨h.arranged, ?_, h.incoming, h.targets⟩
    rintro _ ⟨⟩
    exact (OrderedMap.contains_iff_mem_keys _ _).1 hcontains
  | setName id name =>
    cases hs
    have hinsts : ∀ inst ∈ (b.setName id name).function.insts, ∃ old ∈ b.function.insts,
        inst.incoming = old.incoming ∧ inst.targets = old.targets ∧ inst.opcode = old.opcode := by
      intro inst hinst
      obtain ⟨k, hk⟩ := Array.mem_iff_getElem?.1 hinst
      simp only [setName, Array.getElem?_modify] at hk
      split_ifs at hk
      · obtain ⟨old, hold, rfl⟩ := Option.map_eq_some_iff.1 hk
        exact ⟨old, Array.mem_of_getElem? hold, rfl, rfl, rfl⟩
      · exact ⟨inst, Array.mem_of_getElem? hk, rfl, rfl, rfl⟩
    refine ⟨h.arranged.setName id name, h.current, ?_, ?_⟩
    · intro inst hinst
      obtain ⟨old, hold, hincoming, -, hopcode⟩ := hinsts inst hinst
      unfold Instruction.isMerge
      rw [hincoming, hopcode]
      exact h.incoming old hold
    · intro hfaults inst hinst
      obtain ⟨old, hold, -, htargets, hopcode⟩ := hinsts inst hinst
      unfold Instruction.isTerminator
      rw [htargets, hopcode]
      exact h.targets hfaults old hold
  | append opcode operands =>
    cases hs
    exact h.push (fun hne => absurd rfl hne) (fun _ hne => absurd rfl hne)
  | appendMerge incoming =>
    cases hs
    exact h.push (fun _ => rfl) (fun _ hne => absurd rfl hne)
  | appendTerminator opcode operands targets =>
    cases hs
    unfold appendTerminator
    split_ifs with hterminator
    · exact h.push (fun hne => absurd rfl hne) (fun _ _ => hterminator)
    · exact (h.note _).push (fun hne => absurd rfl hne) (by simp [Builder.note])

end Consistent

/-- As long as block numbers do not run out, a builder is consistent. -/
theorem consistent_run (hfew : ((fresh name).run steps).function.blocks.size < UInt32.size) :
    ((fresh name).run steps).Consistent := by
  refine run_induction (P := fun b => b.function.blocks.size < UInt32.size → b.Consistent)
    (fun _ => .fresh name) ?_ hfew
  intro b b' s hb hs hfew
  exact (hb (Nat.lt_of_le_of_lt (sizes_le_step hs).1 hfew)).step hs hfew

/-! ## Faults -/

theorem placementFault?_eq (hb : b.Consistent) (hfew : b.function.insts.size ≤ UInt32.size)
    {id : BlockId} (hid : id ∈ b.function.blocks.keys) (opcode : Opcode) :
    ∃ label, b.placementFault? id opcode =
      Layout.placementFault (b.function.inBlock id).getLast? label opcode := by
  obtain ⟨e, he, rfl⟩ := List.mem_map.1 hid
  have hblock : b.function.block? e.1 = some e.2 := OrderedMap.get?_eq_some_iff.2 he
  refine ⟨e.2.label, ?_⟩
  unfold placementFault?
  simp only [hblock, hb.arranged.last_eq hfew he]
  rfl

/-- An instruction is appended without a fault if there is a current block and the instruction may
    stand at its end. -/
theorem faults_push_eq_nil_iff (hb : b.Consistent) (hfew : b.function.insts.size ≤ UInt32.size)
    {A : Prop} (h : b.faults = [] ↔ A ∧ b.function.Orderly) (opcode : Opcode)
    (operands : List Operand) (incoming targets : List BlockId) :
    (b.push opcode operands incoming targets).faults = [] ↔
      (A ∧ b.current.isSome = true) ∧
        (b.push opcode operands incoming targets).function.Orderly := by
  cases hcurrent : b.current with
  | none =>
    rw [push_of_current_none hcurrent]
    simp [note]
  | some id =>
    obtain ⟨label, hfault⟩ := placementFault?_eq hb hfew (hb.current id hcurrent) opcode
    rw [push_of_current_some hcurrent]
    dsimp only
    rw [List.append_eq_nil_iff, h, Option.toList_eq_nil_iff, hfault, Function.orderly_place]
    dsimp only
    have hplace : Layout.placementFault (b.function.inBlock id).getLast? label opcode = none ↔
        ∀ last ∈ (b.function.inBlock id).getLast?,
          Layout.MayFollow last ⟨b.nextInst, none, opcode, operands, incoming, targets, id⟩ := by
      cases (b.function.inBlock id).getLast? with
      | none => simp [Layout.placementFault]
      | some last =>
        simp only [Option.mem_def, Option.some.injEq, forall_eq']
        exact @Layout.placementFault_eq_none label last
          ⟨b.nextInst, none, opcode, operands, incoming, targets, id⟩
    rw [hplace]
    simp [and_assoc]

theorem faults_step_eq_nil_iff (hb : b.Consistent) (hfew : b.function.insts.size ≤ UInt32.size)
    (hs : b.step s = .ok b') {A : Prop} (h : b.faults = [] ↔ A ∧ b.function.Orderly) :
    b'.faults = [] ↔
      (A ∧ s.Terminates ∧ (s.contents?.isSome = true → b.current.isSome = true)) ∧
        b'.function.Orderly := by
  have hquiet : s.Terminates → s.contents? = none →
      ((A ∧ s.Terminates ∧ (s.contents?.isSome = true → b.current.isSome = true)) ↔ A) := by
    intro hterminates hnone
    simp [hterminates, hnone]
  cases s with
  | param name | createBlock label | block label =>
    cases hs
    rw [hquiet trivial rfl]
    exact h
  | switchTo id =>
    simp only [step, switchTo] at hs
    split_ifs at hs
    cases hs
    rw [hquiet trivial rfl]
    exact h
  | setName id name =>
    cases hs
    have horderly : (b.setName id name).function.Orderly ↔ b.function.Orderly := by
      refine forall_congr' fun block => ?_
      -- What may stand where is a matter of opcodes, and those have not changed.
      have hopcodes : ∀ insts : List Instruction, insts.IsChain Layout.MayFollow ↔
          (insts.map Instruction.opcode).IsChain fun x y =>
            x.isTerminator = false ∧ (y.isMerge = true → x.isMerge = true) := by
        intro insts
        rw [List.isChain_map]
        rfl
      rw [hopcodes, hopcodes, Function.Arranged.map_inBlock_setName b id name block fun _ => rfl]
    rw [hquiet trivial rfl, horderly]
    exact h
  | append opcode operands | appendMerge incoming =>
    cases hs
    refine (faults_push_eq_nil_iff hb hfew h _ _ _ _).trans (and_congr_left' ?_)
    simp [Step.Terminates, Step.contents?]
  | appendTerminator opcode operands targets =>
    cases hs
    unfold appendTerminator
    by_cases hterminator : opcode.isTerminator = true
    · rw [if_pos hterminator, faults_push_eq_nil_iff hb hfew h]
      simp [Step.Terminates, Step.contents?, hterminator]
    · have hnoted : (b.note (.notTerminator opcode)).faults = [] ↔
          False ∧ (b.note (.notTerminator opcode)).function.Orderly := by
        simp [note]
      rw [if_neg hterminator, faults_push_eq_nil_iff (hb.note _) hfew hnoted]
      simp [Step.Terminates, hterminator]

/-- Whenever an instruction was appended, there was a current block. -/
def Placed (name : String) (steps : List Step) : Prop :=
  ∀ before s after, steps = before ++ s :: after → s.contents?.isSome = true →
    ((fresh name).run before).current.isSome = true

theorem placed_concat : Placed name (steps ++ [s]) ↔
    Placed name steps ∧
      (s.contents?.isSome = true → ((fresh name).run steps).current.isSome = true) := by
  constructor
  · intro h
    refine ⟨fun before t after heq => h before t (after ++ [s]) ?_, h steps s [] rfl⟩
    rw [heq, List.append_assoc, List.cons_append]
  · rintro ⟨h, hlast⟩ before t after heq
    rcases List.eq_nil_or_concat after with rfl | ⟨after, x, rfl⟩
    · obtain ⟨rfl, hst⟩ := List.append_inj' heq (by simp)
      cases hst
      exact hlast
    · rw [List.concat_eq_append, ← List.cons_append, ← List.append_assoc] at heq
      exact h before t after (List.append_inj' heq (by simp)).1

/-- No fault is noted if every instruction was appended to some block, terminators were asked for
    as such, and instructions stand where they may. -/
theorem faults_run_eq_nil_iff
    (hblocks : ((fresh name).run steps).function.blocks.size < UInt32.size)
    (hinsts : ((fresh name).run steps).function.insts.size ≤ UInt32.size) :
    ((fresh name).run steps).faults = [] ↔
      (Placed name steps ∧ ∀ s ∈ steps, s.Terminates) ∧
        ((fresh name).run steps).function.Orderly := by
  induction steps using List.reverseRecOn with
  | nil =>
    have hplaced : Placed name [] := by
      intro before s after heq
      simp at heq
    have horderly : (fresh name).function.Orderly := fun _ => .nil
    exact iff_of_true rfl ⟨⟨hplaced, by simp⟩, horderly⟩
  | append_singleton steps s ih =>
    obtain ⟨hblocks', hinsts'⟩ := (fresh name).sizes_le_run_concat steps s
    have hb : ((fresh name).run steps).Consistent := consistent_run (by omega)
    have hold := ih (by omega) (by omega)
    rw [placed_concat, List.forall_mem_append, List.forall_mem_singleton, run_concat]
    cases hs : ((fresh name).run steps).step s with
    | error e =>
      -- Only choosing a block can fail, and that leaves the builder as it is.
      have hno : s.Terminates ∧ s.contents? = none := by
        cases s with
        | switchTo id => exact ⟨trivial, rfl⟩
        | _ => cases hs
      simpa [hno, Except.toOption] using hold
    | ok b' =>
      show b'.faults = [] ↔ _
      rw [faults_step_eq_nil_iff hb (by omega) hs hold]
      simp only [Except.toOption, Option.getD_some]
      tauto

/-! ## Handing over -/

theorem closingFaults_eq_nil_iff {f : Function} (h : f.Arranged)
    (hfew : f.insts.size ≤ UInt32.size) :
    closingFaults f = [] ↔ f.blocks.isEmpty = false ∧
      (∀ e ∈ f.blocks.entries, ∃ last ∈ (f.inBlock e.1).getLast?, last.isTerminator = true) ∧
      ∀ inst ∈ f.insts, ∀ id ∈ inst.targets ++ inst.incoming, f.blocks.contains id = true := by
  have hterminated : ∀ e ∈ f.blocks.entries, (isTerminated f e.2 = true ↔
      ∃ last ∈ (f.inBlock e.1).getLast?, last.isTerminator = true) := by
    intro e he
    unfold isTerminated
    rw [h.last_eq hfew he]
    cases (f.inBlock e.1).getLast? <;> simp
  unfold closingFaults
  rw [List.append_eq_nil_iff, List.append_eq_nil_iff, and_assoc]
  refine and_congr ?_ (and_congr ?_ ?_)
  · cases f.blocks.isEmpty <;> simp
  · rw [List.filterMap_eq_nil_iff, OrderedMap.values, List.forall_mem_map]
    refine forall₂_congr fun e he => ?_
    rw [← hterminated e he]
    cases isTerminated f e.2 <;> simp
  · simp only [List.flatMap_eq_nil_iff, unknownBlocks, List.filterMap_eq_nil_iff, Array.mem_toList_iff]
    refine forall₂_congr fun inst _ => forall₂_congr fun id _ => ?_
    cases f.blocks.contains id <;> simp

/-- A builder that was used as it should be: nothing was appended without a current block, every
    terminator was one, and the function it has built is complete. -/
structure WellUsed (name : String) (steps : List Step) : Prop where
  placed : Placed name steps
  terminators : ∀ s ∈ steps, s.Terminates
  nonempty : ((fresh name).run steps).function.blocks.isEmpty = false
  /-- The list of each block leads to merges, then other instructions, then one terminator. -/
  order : ∀ block ∈ ((fresh name).run steps).function.blocks.values, ∃ insts,
    block.instructions.map ((fresh name).run steps).function.inst? = insts.map some ∧
      BlockOrder Instruction.isMerge Instruction.isTerminator insts
  known : ∀ inst ∈ ((fresh name).run steps).function.insts,
    ∀ id ∈ inst.targets ++ inst.incoming,
      ((fresh name).run steps).function.blocks.contains id = true

/-- The lists of the blocks are in order if neighbours are and each ends with a terminator. -/
theorem order_iff_orderly {f : Function} (h : f.Arranged) (hfew : f.insts.size ≤ UInt32.size) :
    (∀ block ∈ f.blocks.values, ∃ insts, block.instructions.map f.inst? = insts.map some ∧
        BlockOrder Instruction.isMerge Instruction.isTerminator insts) ↔
      f.Orderly ∧
        ∀ e ∈ f.blocks.entries, ∃ last ∈ (f.inBlock e.1).getLast?, last.isTerminator = true := by
  have horder : ∀ e ∈ f.blocks.entries,
      ((∃ insts, e.2.instructions.map f.inst? = insts.map some ∧
        BlockOrder Instruction.isMerge Instruction.isTerminator insts) ↔
          (f.inBlock e.1).IsChain Layout.MayFollow ∧
            ∃ last ∈ (f.inBlock e.1).getLast?, last.isTerminator = true) := by
    intro e he
    rw [h.map_inst? hfew he]
    constructor
    · rintro ⟨insts, hinsts, horder⟩
      obtain rfl := List.map_injective_iff.2 (fun _ _ => Option.some.inj) hinsts
      exact (blockOrder_iff fun inst => inst.opcode.isTerminator_of_isMerge).1 horder
    · intro hchain
      exact ⟨_, rfl, (blockOrder_iff fun inst => inst.opcode.isTerminator_of_isMerge).2 hchain⟩
  have horderly : f.Orderly ↔
      ∀ e ∈ f.blocks.entries, (f.inBlock e.1).IsChain Layout.MayFollow := by
    refine ⟨fun hall e _ => hall e.1, fun hall id => ?_⟩
    cases hinsts : f.inBlock id with
    | nil => exact .nil
    | cons inst insts =>
      obtain ⟨hmem, rfl⟩ := Function.mem_inBlock.1 (hinsts ▸ List.mem_cons_self : inst ∈ f.inBlock id)
      obtain ⟨e, he, heq⟩ := List.mem_map.1 (h.housed inst hmem)
      rw [← hinsts, ← heq]
      exact hall e he
  rw [OrderedMap.values, List.forall_mem_map, horderly, ← forall₂_and]
  exact forall₂_congr horder

theorem wellUsed_iff (hblocks : ((fresh name).run steps).function.blocks.size < UInt32.size)
    (hinsts : ((fresh name).run steps).function.insts.size ≤ UInt32.size) :
    WellUsed name steps ↔ ((fresh name).run steps).faults = [] ∧
      closingFaults ((fresh name).run steps).function = [] := by
  have harranged := (consistent_run hblocks).arranged
  rw [faults_run_eq_nil_iff hblocks hinsts, closingFaults_eq_nil_iff harranged hinsts]
  constructor
  · rintro ⟨hplaced, hterminators, hnonempty, horder, hknown⟩
    obtain ⟨horderly, hlast⟩ := (order_iff_orderly harranged hinsts).1 horder
    exact ⟨⟨⟨hplaced, hterminators⟩, horderly⟩, hnonempty, hlast, hknown⟩
  · rintro ⟨⟨⟨hplaced, hterminators⟩, horderly⟩, hnonempty, hlast, hknown⟩
    exact ⟨hplaced, hterminators, hnonempty,
      (order_iff_orderly harranged hinsts).2 ⟨horderly, hlast⟩, hknown⟩

theorem build_eq_ok_iff {f : Function} : b.build = .ok f ↔
    (b.faults = [] ∧ closingFaults b.function = []) ∧ f = b.function.linked := by
  constructor
  · intro h
    obtain ⟨hf, hfaults⟩ := build_eq_ok h
    exact ⟨hfaults, hf⟩
  · rintro ⟨⟨hfaults, hclosing⟩, rfl⟩
    unfold build
    rw [hfaults, hclosing]
    rfl

theorem labels_push (b : Builder) (opcode : Opcode) (operands : List Operand)
    (incoming targets : List BlockId) :
    (b.push opcode operands incoming targets).function.blocks.values.map Block.label =
      b.function.blocks.values.map Block.label := by
  cases hcurrent : b.current with
  | none =>
    rw [push_of_current_none hcurrent]
    rfl
  | some id =>
    rw [push_of_current_some hcurrent]
    simp only [place, OrderedMap.values, OrderedMap.entries_modify, List.map_map]
    refine List.map_congr_left fun e _ => ?_
    simp only [Function.comp_apply]
    split_ifs <;> rfl

theorem labels_step (hb : b.Consistent) (hs : b.step s = .ok b')
    (hfew : b.function.blocks.size < UInt32.size) :
    b'.function.blocks.values.map Block.label =
      b.function.blocks.values.map Block.label ++ s.newLabel?.toList := by
  have hcreate : ∀ label, (b.createBlock label).function.blocks.values.map Block.label =
      b.function.blocks.values.map Block.label ++ [label] := by
    intro label
    unfold OrderedMap.values
    rw [hb.arranged.entries_createBlock hfew label, List.map_append, List.map_append]
    rfl
  cases s with
  | createBlock label | block label =>
    cases hs
    exact hcreate label
  | param name | setName id name =>
    cases hs
    exact (List.append_nil _).symm
  | switchTo id =>
    simp only [step, switchTo] at hs
    split_ifs at hs
    cases hs
    exact (List.append_nil _).symm
  | append opcode operands | appendMerge incoming =>
    cases hs
    exact (labels_push _ _ _ _ _).trans (List.append_nil _).symm
  | appendTerminator opcode operands targets =>
    cases hs
    unfold appendTerminator
    split_ifs <;> exact (labels_push _ _ _ _ _).trans (List.append_nil _).symm

/-- Blocks stand in the order of their creation. -/
theorem labels_run (hfew : ((fresh name).run steps).function.blocks.size < UInt32.size) :
    ((fresh name).run steps).function.blocks.values.map Block.label =
      steps.filterMap Step.newLabel? := by
  induction steps using List.reverseRecOn with
  | nil => rfl
  | append_singleton steps s ih =>
    obtain ⟨hblocks, -⟩ := (fresh name).sizes_le_run_concat steps s
    rw [List.filterMap_append, ← ih (by omega), run_concat]
    cases hs : ((fresh name).run steps).step s with
    | error e =>
      have hno : s.newLabel? = none := by
        cases s with
        | switchTo id => rfl
        | _ => cases hs
      simp [hno, Except.toOption]
    | ok b' =>
      show b'.function.blocks.values.map Block.label = _
      rw [labels_step (consistent_run (by omega)) hs (by omega)]
      cases hlabel : s.newLabel? <;> simp [hlabel]

/-- A builder hands over the function that it has built exactly if it was used as it should be,
    and then the numbers and lists of the function are in order and its blocks stand in the order
    of their creation. Numbers are 32 bits wide, so there may not be more blocks or instructions
    than there are numbers. -/
theorem build_run (hblocks : ((fresh name).run steps).function.blocks.size < UInt32.size)
    (hinsts : ((fresh name).run steps).function.insts.size ≤ UInt32.size) :
    ((∃ f, ((fresh name).run steps).build = .ok f) ↔ WellUsed name steps) ∧
      ∀ {f : Function}, ((fresh name).run steps).build = .ok f →
        f.WellBuilt ∧ f.blocks.values.map Block.label = steps.filterMap Step.newLabel? := by
  have hb := consistent_run hblocks
  constructor
  · rw [wellUsed_iff hblocks hinsts]
    constructor
    · rintro ⟨f, hf⟩
      exact (build_eq_ok_iff.1 hf).1
    · intro hfaults
      exact ⟨_, build_eq_ok_iff.2 ⟨hfaults, rfl⟩⟩
  · intro f hf
    obtain ⟨⟨hfaults, -⟩, rfl⟩ := build_eq_ok_iff.1 hf
    constructor
    · rw [← Function.size_linked] at hblocks
      exact hb.arranged.linked.wellBuilt hblocks hinsts (hb.targets hfaults) hb.incoming
    · rw [← labels_run hblocks]
      simp [Function.linked, OrderedMap.values, OrderedMap.mapWithKey]

/-- A loop whose last block is filled before the middle one. A step in between fails, and an
    instruction is named after others have been appended. -/
def countdownSteps : List Step :=
  [.param "n", .createBlock "entry", .createBlock "loop", .block "done", .ret (some (.inst ⟨1⟩)),
    .switchTo ⟨0⟩, .jump ⟨1⟩, .switchTo ⟨7⟩, .switchTo ⟨1⟩,
    .appendMerge [(.arg 0, ⟨0⟩), (.inst ⟨3⟩, ⟨1⟩)], .binary .sub (.inst ⟨2⟩) (.const 1),
    .setName ⟨2⟩ "i", .branch (.inst ⟨3⟩) ⟨1⟩ ⟨2⟩]

theorem build_run_countdown :
    WellUsed "countdown" countdownSteps ∧
      ∃ f, ((fresh "countdown").run countdownSteps).build = .ok f ∧ f.WellBuilt ∧
        f.blocks.values.map Block.label = ["entry", "loop", "done"] := by
  obtain ⟨hiff, hbuilt⟩ :=
    @build_run "countdown" countdownSteps (by decide +kernel) (by decide +kernel)
  have hok : ((fresh "countdown").run countdownSteps).build.isOk = true := by decide +kernel
  cases hf : ((fresh "countdown").run countdownSteps).build with
  | error e => rw [hf] at hok; cases hok
  | ok f =>
    obtain ⟨hwell, hlabels⟩ := hbuilt hf
    exact ⟨hiff.1 ⟨f, hf⟩, f, rfl, hwell, hlabels⟩

end Builder

end FlowFacts
