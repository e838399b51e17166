import FlowFacts.Proofs.BuilderRuns
import Mathlib.Data.List.Chain

/-!
# Functions laid out in sections

A function whose blocks were filled one after the other is determined by its name, its parameters
and, for each block, the label and the instructions. Such a layout says where each instruction
lies, so the numbers that instructions and blocks carry are not part of what has to be known.

Main results:

* `Layout.get?_blocks`, `Layout.inst?_assemble`: what the numbers of a layout refer to.
* `Layout.push_assemble`: appending an instruction to the section that is being filled.
* `Layout.numbered_append`: which numbers the next instruction has.
* `Layout.build_assemble`: when such a function can be handed over.
-/

namespace FlowFacts

theorem BlockId.ofNat_inj {i j : Nat} (hi : i < UInt32.size) (hj : j < UInt32.size)
    (h : ofNat i = ofNat j) : i = j := by
  rw [← toNat_ofNat hi, ← toNat_ofNat hj, h]

theorem OrderedMap.get?_eq_some_iff {κ α : Type} [DecidableEq κ] {m : OrderedMap κ α} {k : κ}
    {a : α} : m.get? k = some a ↔ (k, a) ∈ m.entries := by
  obtain ⟨es, hnodup⟩ := m
  unfold get?
  induction es with
  | nil => simp
  | cons e es ih =>
    rw [List.map_cons, List.nodup_cons] at hnodup
    by_cases he : e.1 = k
    · subst he
      have hnot : (e.1, a) ∉ es := fun hmem => hnodup.1 (List.mem_map.2 ⟨_, hmem, rfl⟩)
      simp [hnot, Prod.ext_iff, eq_comm]
    · have hne : (k, a) ≠ e := fun heq => he (heq ▸ rfl)
      simpa [he, hne] using ih hnodup.2

theorem OrderedMap.entries_modify {κ α : Type} [DecidableEq κ] (m : OrderedMap κ α) (k : κ)
    (f : α → α) :
    (m.modify k f).entries = m.entries.map fun e => (e.1, if e.1 = k then f e.2 else e.2) := rfl

/-- Labels, each with the instructions of its block. -/
abbrev Layout := List (String × List Instruction)

namespace Layout

variable {L done rest : Layout} {label name : String} {params : List String}
  {insts : List Instruction} {inst : Instruction} {i k : Nat}

/-- All instructions in order. -/
def instructions (L : Layout) : List Instruction := L.flatMap Prod.snd

/-- The block of a section. -/
def block (i : Nat) (s : String × List Instruction) : Block :=
  ⟨.ofNat i, s.1, s.2.map Instruction.id, [], []⟩

/-- The blocks, numbered from zero on. -/
def blocks (L : Layout) : OrderedMap BlockId Block :=
  .ofList (L.mapIdx fun i s => (BlockId.ofNat i, block i s))

/-- The function with a given layout. -/
def assemble (L : Layout) (name : String) (params : List String) : Function :=
  ⟨name, params, L.blocks, L.instructions.toArray⟩

/-- The numbers are those of the places, and there are enough numbers for all places. -/
structure Numbered (L : Layout) : Prop where
  few_blocks : L.length ≤ UInt32.size
  few_instructions : L.instructions.length ≤ UInt32.size
  id_eq : ∀ {k : Nat} {inst : Instruction}, L.instructions[k]? = some inst → inst.id = .ofSlot k
  block_eq : ∀ {i : Nat} {s : String × List Instruction}, L[i]? = some s →
    ∀ inst ∈ s.2, inst.block = .ofNat i

/-- No two instructions have the same number. -/
theorem Numbered.pairwise_id (h : L.Numbered) :
    L.instructions.Pairwise fun a b => a.id ≠ b.id := by
  refine List.pairwise_iff_getElem.2 fun i j hi hj hij heq => ?_
  have hfew := h.few_instructions
  rw [h.id_eq (List.getElem?_eq_getElem hi), h.id_eq (List.getElem?_eq_getElem hj)] at heq
  have hslot := congrArg InstId.slot heq
  rw [InstId.slot_ofSlot (by omega), InstId.slot_ofSlot (by omega)] at hslot
  omega

/-! ## Lookups -/

theorem entries_blocks (h : L.length ≤ UInt32.size) :
    L.blocks.entries = L.mapIdx fun i s => (BlockId.ofNat i, block i s) := by
  refine OrderedMap.entries_ofList ?_
  refine List.pairwise_iff_getElem.2 fun i j hi hj hij heq => ?_
  rw [List.length_map, List.length_mapIdx] at hi hj
  simp only [List.getElem_map, List.getElem_mapIdx] at heq
  have := BlockId.ofNat_inj (by omega) (by omega) heq
  omega

theorem get?_blocks (h : L.length ≤ UInt32.size) (hi : i < L.length) :
    L.blocks.get? (.ofNat i) = some (block i (L.get ⟨i, hi⟩)) := by
  rw [OrderedMap.get?_eq_some_iff, entries_blocks h, List.mem_mapIdx]
  exact ⟨i, hi, rfl⟩

theorem values_blocks (h : L.length ≤ UInt32.size) : L.blocks.values = L.mapIdx block := by
  rw [OrderedMap.values, entries_blocks h]
  exact List.ext_getElem? fun i => by simp [List.getElem?_mapIdx, Function.comp_def]

theorem contains_blocks (h : L.length ≤ UInt32.size) (hi : i < L.length) :
    L.blocks.contains (.ofNat i) = true := by
  rw [← OrderedMap.isSome_get?, get?_blocks h hi]
  rfl

theorem exists_of_contains (h : L.length ≤ UInt32.size) {id : BlockId}
    (hid : L.blocks.contains id = true) : ∃ i s, L[i]? = some s ∧ id = .ofNat i := by
  rw [OrderedMap.contains_iff_mem_keys, OrderedMap.keys, entries_blocks h] at hid
  obtain ⟨e, he, rfl⟩ := List.mem_map.1 hid
  obtain ⟨i, hi, rfl⟩ := List.mem_mapIdx.1 he
  exact ⟨i, _, List.getElem?_eq_getElem hi, rfl⟩

/-- The number of an instruction leads back to it. -/
theorem inst?_assemble (h : L.Numbered) (hinst : inst ∈ L.instructions) :
    (L.assemble name params).inst? inst.id = some inst := by
  obtain ⟨k, hk, rfl⟩ := List.getElem_of_mem hinst
  have hsome := List.getElem?_eq_getElem hk
  have hfew := h.few_instructions
  unfold Function.inst? assemble
  rw [h.id_eq hsome, InstId.slot_ofSlot (by omega), List.getElem?_toArray, hsome]

theorem filterMap_inst? (h : L.Numbered) (hinsts : ∀ inst ∈ insts, inst ∈ L.instructions) :
    (insts.map Instruction.id).filterMap (L.assemble name params).inst? = insts := by
  induction insts with
  | nil => rfl
  | cons inst insts ih =>
    rw [List.forall_mem_cons] at hinsts
    rw [List.map_cons, List.filterMap_cons, inst?_assemble h hinsts.1, ih hinsts.2]

/-! ## Filling the sections -/

theorem instructions_append (hrest : ∀ s ∈ rest, s.2 = []) :
    instructions (done ++ (label, insts) :: rest) = instructions done ++ insts := by
  have hnil : rest.flatMap Prod.snd = [] := by simpa [List.flatMap_eq_nil_iff] using hrest
  simp [instructions, hnil]

/-- Entering an instruction that lies in the section that is being filled. -/
theorem place_assemble (hrest : ∀ s ∈ rest, s.2 = [])
    (hfew : (done ++ (label, insts) :: rest).length ≤ UInt32.size)
    (hblock : inst.block = .ofNat done.length) :
    Builder.place ((done ++ (label, insts) :: rest).assemble name params) inst =
      (done ++ (label, insts ++ [inst]) :: rest).assemble name params := by
  have hblocks : (blocks (done ++ (label, insts) :: rest)).modify inst.block
      (fun blk => { blk with instructions := blk.instructions ++ [inst.id] }) =
        blocks (done ++ (label, insts ++ [inst]) :: rest) := by
    apply OrderedMap.ext
    rw [OrderedMap.entries_modify, entries_blocks hfew, entries_blocks (by simpa using hfew),
      hblock]
    refine List.ext_getElem? fun i => ?_
    simp only [List.getElem?_map, List.getElem?_mapIdx]
    -- Only the block of the section in the middle has the number of the instruction's block.
    rcases Nat.lt_trichotomy i done.length with hi | rfl | hi
    · have hne : ¬ BlockId.ofNat i = .ofNat done.length := fun heq => by
        rw [List.length_append, List.length_cons] at hfew
        have := BlockId.ofNat_inj (by omega) (by omega) heq
        omega
      simp [List.getElem?_append_left hi, hne, Function.comp_def]
    · simp [block]
    · obtain ⟨j, rfl⟩ : ∃ j, i = done.length + (j + 1) := ⟨i - done.length - 1, by omega⟩
      rw [List.getElem?_append_right (by omega), List.getElem?_append_right (by omega)]
      simp only [Nat.add_sub_cancel_left, List.getElem?_cons_succ]
      cases hj : rest[j]? with
      | none => rfl
      | some s =>
        have hlt := (List.getElem?_eq_some_iff.1 hj).1
        have hne : ¬ BlockId.ofNat (done.length + (j + 1)) = .ofNat done.length := fun heq => by
          rw [List.length_append, List.length_cons] at hfew
          have := BlockId.ofNat_inj (by omega) (by omega) heq
          omega
        simp [hne]
  unfold Builder.place assemble
  simp only [hblocks, instructions_append hrest]
  simp

/-- What is wrong with an opcode behind the last instruction of a block, if anything. -/
def placementFault (last : Option Instruction) (label : String) (opcode : Opcode) :
    Option BuildFault :=
  match last with
  | none => none
  | some last =>
    if last.isTerminator then some (.afterTerminator opcode label)
    else if opcode.isMerge && !last.isMerge then some (.lateMerge label)
    else none

theorem mem_instructions {s : String × List Instruction} (hs : s ∈ L) (hinst : inst ∈ s.2) :
    inst ∈ L.instructions :=
  List.mem_flatMap.2 ⟨s, hs, hinst⟩

/-- The last instruction of a section's block. -/
theorem last_block (h : L.Numbered) {s : String × List Instruction} (hs : s ∈ L) (i : Nat) :
    (block i s).last?.bind (L.assemble name params).inst? = s.2.getLast? := by
  unfold Block.last? block
  rw [List.getLast?_map]
  cases hlast : s.2.getLast? with
  | none => rfl
  | some inst =>
    exact inst?_assemble h (mem_instructions hs (List.mem_of_getLast? hlast))

theorem placementFault?_assemble (h : L.Numbered) {s : String × List Instruction}
    (hs : L[i]? = some s) (current : Option BlockId) (faults : List BuildFault) (opcode : Opcode) :
    Builder.placementFault? ⟨L.assemble name params, current, faults⟩ (.ofNat i) opcode =
      placementFault s.2.getLast? s.1 opcode := by
  obtain ⟨hi, hget⟩ := List.getElem?_eq_some_iff.1 hs
  have hblock : (L.assemble name params).block? (.ofNat i) = some (block i s) := by
    have hget? := get?_blocks h.few_blocks hi
    rwa [List.get_eq_getElem, hget] at hget?
  unfold Builder.placementFault?
  simp only [hblock, last_block h (List.mem_of_getElem? hs) i]
  rfl

/-- Appending an instruction to the section that is being filled. -/
theorem push_assemble (h : Numbered (done ++ (label, insts) :: rest))
    (hrest : ∀ s ∈ rest, s.2 = []) (faults : List BuildFault) (opcode : Opcode)
    (operands : List Operand) (incoming targets : List BlockId) :
    Builder.push ⟨(done ++ (label, insts) :: rest).assemble name params,
        some (.ofNat done.length), faults⟩ opcode operands incoming targets =
      ⟨(done ++ (label, insts ++ [⟨.ofSlot (instructions done ++ insts).length, none, opcode,
          operands, incoming, targets, .ofNat done.length⟩]) :: rest).assemble name params,
        some (.ofNat done.length),
        faults ++ (placementFault insts.getLast? label opcode).toList⟩ := by
  have hfault : Builder.placementFault? ⟨(done ++ (label, insts) :: rest).assemble name params,
      some (.ofNat done.length), faults⟩ (.ofNat done.length) opcode =
        placementFault insts.getLast? label opcode :=
    placementFault?_assemble (s := (label, insts)) h (by simp) _ _ _
  have hnext : Builder.nextInst ⟨(done ++ (label, insts) :: rest).assemble name params,
      some (.ofNat done.length), faults⟩ = .ofSlot (instructions done ++ insts).length := by
    simp [Builder.nextInst, assemble, instructions_append hrest]
  unfold Builder.push
  simp only [hfault, hnext]
  rw [place_assemble hrest h.few_blocks rfl]

/-- Naming the instruction that was appended last. -/
theorem setName_assemble (hrest : ∀ s ∈ rest, s.2 = [])
    (hfew : (instructions done ++ insts).length < UInt32.size) (current : Option BlockId)
    (faults : List BuildFault) (result : String) :
    Builder.setName
        ⟨(done ++ (label, insts ++ [inst]) :: rest).assemble name params, current, faults⟩
        (.ofSlot (instructions done ++ insts).length) result =
      ⟨(done ++ (label, insts ++ [{ inst with name := some result }]) :: rest).assemble name params,
        current, faults⟩ := by
  have hinsts : ∀ (xs : List Instruction) (f : Instruction → Instruction),
      (xs ++ [inst]).toArray.modify xs.length f = (xs ++ [f inst]).toArray := by
    intro xs f
    refine Array.ext_getElem? fun i => ?_
    rw [Array.getElem?_modify]
    rcases Nat.lt_trichotomy i xs.length with hi | rfl | hi
    · simp [List.getElem?_append_left hi, Nat.ne_of_gt hi]
    · simp
    · have hnone : ∀ x, (xs ++ [x])[i]? = none := fun x =>
        List.getElem?_eq_none (by rw [List.length_append, List.length_singleton]; omega)
      simp [hnone]
  have hblocks : blocks (done ++ (label, insts ++ [inst]) :: rest) =
      blocks (done ++ (label, insts ++ [{ inst with name := some result }]) :: rest) := by
    simp [blocks, List.mapIdx_append, List.mapIdx_cons, block]
  unfold Builder.setName assemble
  simp only [instructions_append hrest, ← List.append_assoc]
  rw [InstId.slot_ofSlot hfew, hinsts, hblocks]

/-- A new block is a section without instructions. -/
theorem createBlock_assemble (h : L.length < UInt32.size) (current : Option BlockId)
    (faults : List BuildFault) :
    Builder.createBlock ⟨L.assemble name params, current, faults⟩ label =
      ⟨(L ++ [(label, [])]).assemble name params, current, faults⟩ := by
  have hentries := entries_blocks (Nat.le_of_lt h)
  have hnext : Builder.nextBlock ⟨L.assemble name params, current, faults⟩ = .ofNat L.length := by
    simp [Builder.nextBlock, assemble, OrderedMap.size, hentries]
  have hnew : BlockId.ofNat L.length ∉ L.blocks.entries.map Prod.fst := by
    intro hmem
    obtain ⟨e, he, heq⟩ := List.mem_map.1 hmem
    rw [hentries] at he
    obtain ⟨i, hi, rfl⟩ := List.mem_mapIdx.1 he
    have := BlockId.ofNat_inj (by omega) h heq
    omega
  have hblocks : L.blocks.insert (.ofNat L.length) (.fresh (.ofNat L.length) label) =
      blocks (L ++ [(label, [])]) := by
    apply OrderedMap.ext
    rw [entries_blocks (by rw [List.length_append, List.length_singleton]; omega)]
    show OrderedMap.insertEntry _ _ _ = _
    rw [OrderedMap.insertEntry_of_not_mem hnew, hentries, List.mapIdx_append]
    simp [block, Block.fresh]
  unfold Builder.createBlock
  simp only [hnext]
  show Builder.mk ⟨name, params, L.blocks.insert _ _, _⟩ _ _ = _
  rw [hblocks]
  simp [assemble, instructions]

/-- Numbers go on where they ended. -/
theorem numbered_append (hrest : ∀ s ∈ rest, s.2 = []) :
    Numbered (done ++ (label, insts ++ [inst]) :: rest) ↔
      Numbered (done ++ (label, insts) :: rest) ∧
        (instructions done ++ insts).length < UInt32.size ∧
        inst.id = .ofSlot (instructions done ++ insts).length ∧
        inst.block = .ofNat done.length := by
  have hat : ∀ xs, (done ++ (label, xs) :: rest)[done.length]? = some (label, xs) := by simp
  have hother : ∀ xs ys i, i ≠ done.length →
      (done ++ (label, xs) :: rest)[i]? = (done ++ (label, ys) :: rest)[i]? := by
    intro xs ys i hi
    rcases Nat.lt_or_gt_of_ne hi with hi | hi
    · rw [List.getElem?_append_left hi, List.getElem?_append_left hi]
    · obtain ⟨j, rfl⟩ : ∃ j, i = done.length + (j + 1) := ⟨i - done.length - 1, by omega⟩
      rw [List.getElem?_append_right (by omega), List.getElem?_append_right (by omega),
        Nat.add_sub_cancel_left, List.getElem?_cons_succ, List.getElem?_cons_succ]
  constructor
  · rintro ⟨hblocks, hinsts, hid, hblock⟩
    rw [instructions_append hrest, ← List.append_assoc, List.length_append] at hinsts
    refine ⟨⟨by simpa using hblocks, ?_, fun {k inst} hk => ?_, fun {i s} hs => ?_⟩, ?_, ?_, ?_⟩
    · rw [instructions_append hrest]
      omega
    · rw [instructions_append hrest] at hk
      refine hid ?_
      rw [instructions_append hrest, ← List.append_assoc,
        List.getElem?_append_left (List.getElem?_eq_some_iff.1 hk).1, hk]
    · by_cases hi : i = done.length
      · subst hi
        rw [hat] at hs
        cases hs
        intro x hx
        exact hblock (hat _) x (List.mem_append_left _ hx)
      · exact hblock ((hother _ _ i hi).trans hs)
    · rw [List.length_singleton] at hinsts
      omega
    · refine hid ?_
      rw [instructions_append hrest, ← List.append_assoc]
      simp
    · exact hblock (hat _) inst (by simp)
  · rintro ⟨⟨hblocks, hinsts, hid, hblock⟩, hfew, hinstId, hinstBlock⟩
    refine ⟨by simpa using hblocks, ?_, fun {k x} hk => ?_, fun {i s} hs => ?_⟩
    · rw [instructions_append hrest, ← List.append_assoc, List.length_append, List.length_singleton]
      omega
    · rw [instructions_append hrest, ← List.append_assoc] at hk
      rw [instructions_append hrest] at hid
      rcases Nat.lt_trichotomy k (instructions done ++ insts).length with hlt | rfl | hgt
      · rw [List.getElem?_append_left hlt] at hk
        exact hid hk
      · rw [List.getElem?_concat_length] at hk
        cases hk
        exact hinstId
      · rw [List.getElem?_eq_none (by rw [List.length_append, List.length_singleton]; omega)] at hk
        cases hk
    · by_cases hi : i = done.length
      · subst hi
        rw [hat] at hs
        cases hs
        intro x hx
        rcases List.mem_append.1 hx with hx | hx
        · exact hblock (hat _) x hx
        · rw [List.mem_singleton.1 hx, hinstBlock]
      · exact hblock ((hother _ _ i hi).trans hs)

/-- What comes later does not change earlier numbers. -/
theorem Numbered.of_append (hrest : ∀ s ∈ rest, s.2 = []) {more : List Instruction}
    (h : Numbered (done ++ (label, insts ++ more) :: rest)) :
    Numbered (done ++ (label, insts) :: rest) := by
  induction more using List.reverseRecOn with
  | nil => simpa using h
  | append_singleton more inst ih =>
    rw [← List.append_assoc] at h
    exact ih ((numbered_append hrest).1 h).1

/-- Sections whose instructions are not there yet leave the numbers of the others alone. -/
theorem Numbered.of_blank (hrest : ∀ s ∈ rest, s.2 = []) (hlength : rest.length = L.length)
    (h : Numbered (done ++ L)) : Numbered (done ++ rest) := by
  have hinsts : instructions (done ++ rest) = instructions done := by
    have hnil : rest.flatMap Prod.snd = [] := by simpa [List.flatMap_eq_nil_iff] using hrest
    simp [instructions, hnil]
  have hsplit : instructions (done ++ L) = instructions done ++ instructions L := by
    simp [instructions]
  refine ⟨?_, ?_, fun {k inst} hk => ?_, fun {i s} hs => ?_⟩
  · have hfew := h.few_blocks
    rw [List.length_append] at hfew ⊢
    omega
  · have hfew := h.few_instructions
    rw [hsplit, List.length_append] at hfew
    rw [hinsts]
    omega
  · rw [hinsts] at hk
    refine h.id_eq ?_
    rw [hsplit, List.getElem?_append_left (List.getElem?_eq_some_iff.1 hk).1, hk]
  · by_cases hi : i < done.length
    · rw [List.getElem?_append_left hi] at hs
      exact h.block_eq (by rw [List.getElem?_append_left hi, hs])
    · rw [List.getElem?_append_right (by omega)] at hs
      rw [hrest s (List.mem_of_getElem? hs)]
      simp

/-! ## Handing over -/

/-- The second instruction may stand right behind the first one. -/
def MayFollow (first second : Instruction) : Prop :=
  first.isTerminator = false ∧ (second.isMerge = true → first.isMerge = true)

/-- What is wrong with the places of instructions behind a last one, if there is one. -/
def placementFaults (label : String) : Option Instruction → List Instruction → List BuildFault
  | _, [] => []
  | last, inst :: insts =>
    (placementFault last label inst.opcode).toList ++ placementFaults label (some inst) insts

theorem placementFault_eq_none {first second : Instruction} :
    placementFault (some first) label second.opcode = none ↔ MayFollow first second := by
  unfold placementFault MayFollow
  show (if first.isTerminator then some (BuildFault.afterTerminator second.opcode label)
    else if second.isMerge && !first.isMerge then some (.lateMerge label) else none) = none ↔ _
  split_ifs with hterminator hmerge
  · simp [hterminator]
  · have hboth : second.isMerge = true ∧ first.isMerge = false := by simpa using hmerge
    simp [hboth]
  · have hnot : second.isMerge = true → first.isMerge = true := by simpa using hmerge
    simpa [hterminator] using hnot

theorem placementFaults_eq_nil {last : Option Instruction} :
    placementFaults label last insts = [] ↔ (last.toList ++ insts).IsChain MayFollow := by
  induction insts generalizing last with
  | nil => cases last <;> simp [placementFaults]
  | cons inst insts ih =>
    rw [placementFaults, List.append_eq_nil_iff, ih, Option.toList_eq_nil_iff]
    cases last with
    | none => simp [placementFault]
    | some last => simp [placementFault_eq_none]

/-- What a function needs to be handed over: there is a block, each block has its merges in front
    and its one terminator at the end, and references to blocks lead somewhere. -/
structure Sound (L : Layout) : Prop where
  nonempty : L ≠ []
  order : ∀ s ∈ L, s.2.IsChain MayFollow
  terminated : ∀ s ∈ L, ∃ inst ∈ s.2.getLast?, inst.isTerminator = true
  known : ∀ inst ∈ L.instructions, ∀ id ∈ inst.targets ++ inst.incoming,
    L.blocks.contains id = true

theorem closingFaults_assemble (h : L.Numbered) :
    Builder.closingFaults (L.assemble name params) = [] ↔
      L ≠ [] ∧ (∀ s ∈ L, ∃ inst ∈ s.2.getLast?, inst.isTerminator = true) ∧
        ∀ inst ∈ L.instructions, ∀ id ∈ inst.targets ++ inst.incoming,
          L.blocks.contains id = true := by
  have hempty : (L.assemble name params).blocks.isEmpty = true ↔ L = [] := by
    show L.blocks.entries.isEmpty = true ↔ L = []
    rw [entries_blocks h.few_blocks, List.isEmpty_iff, List.mapIdx_eq_nil_iff]
  have hterminated : ∀ i s, s ∈ L →
      (Builder.isTerminated (L.assemble name params) (block i s) = true ↔
        ∃ inst ∈ s.2.getLast?, inst.isTerminator = true) := by
    intro i s hs
    unfold Builder.isTerminated
    rw [last_block h hs]
    cases s.2.getLast? <;> simp
  unfold Builder.closingFaults
  rw [List.append_eq_nil_iff, List.append_eq_nil_iff, and_assoc]
  refine and_congr ?_ (and_congr ?_ ?_)
  · by_cases hL : L = []
    · rw [if_pos (hempty.2 hL)]
      simp [hL]
    · rw [if_neg (mt hempty.1 hL)]
      simp [hL]
  · rw [List.filterMap_eq_nil_iff]
    show (∀ b ∈ L.blocks.values, _) ↔ _
    rw [values_blocks h.few_blocks]
    constructor
    · intro hall s hs
      obtain ⟨i, hi, rfl⟩ := List.getElem_of_mem hs
      have hblock := hall _ (List.mem_mapIdx.2 ⟨i, hi, rfl⟩)
      by_contra hnot
      simp [mt (hterminated i _ hs).1 hnot] at hblock
    · rintro hall b hb
      obtain ⟨i, hi, rfl⟩ := List.mem_mapIdx.1 hb
      have hs := List.getElem_mem hi
      simp [(hterminated i _ hs).2 (hall _ hs)]
  · simp only [assemble, List.flatMap_eq_nil_iff, Builder.unknownBlocks, List.filterMap_eq_nil_iff]
    refine forall₂_congr fun inst _ => forall₂_congr fun id _ => ?_
    cases L.blocks.contains id <;> simp

/-- A function with a sound layout is handed over with its links, and no other one is. -/
theorem build_assemble (h : L.Numbered) {current : Option BlockId} {f : Function} :
    Builder.build ⟨L.assemble name params, current,
        L.flatMap fun s => placementFaults s.1 none s.2⟩ = .ok f ↔
      L.Sound ∧ f = (L.assemble name params).linked := by
  have horder : (L.flatMap fun s => placementFaults s.1 none s.2) = [] ↔
      ∀ s ∈ L, s.2.IsChain MayFollow := by
    rw [List.flatMap_eq_nil_iff]
    exact forall₂_congr fun s _ => placementFaults_eq_nil
  unfold Builder.build
  constructor
  · intro hf
    split at hf
    · rename_i hnil
      obtain ⟨hfaults, hrest⟩ := List.append_eq_nil_iff.1 hnil
      obtain ⟨hne, hterminated, hknown⟩ := (closingFaults_assemble h).1 hrest
      exact ⟨⟨hne, horder.1 hfaults, hterminated, hknown⟩, (Except.ok.inj hf).symm⟩
    · cases hf
  · rintro ⟨hsound, rfl⟩
    have hnil : Builder.closingFaults (L.assemble name params) = [] :=
      (closingFaults_assemble h).2 ⟨hsound.nonempty, hsound.terminated, hsound.known⟩
    rw [horder.2 hsound.order, hnil]
    rfl

end Layout

end FlowFacts
