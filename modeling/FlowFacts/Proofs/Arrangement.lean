import FlowFacts.Proofs.Assembly
import Mathlib.Data.List.Nodup

/-!
# How blocks and the instruction table fit together

A function keeps its instructions twice: the table holds them in the order of their numbers, and
each block lists the numbers of its own. While a function is built, blocks may be filled in any
order; the two always agree.

Main results:

* `blockOrder_iff`: the order of a block, seen from neighbouring instructions.
* `Function.Arranged.place`, `Function.Arranged.createBlock`, `Function.Arranged.setName`: what is
  done to a function leaves table and lists in agreement.
* `Function.Arranged.wellBuilt`: what that means for single instructions.
-/

namespace FlowFacts

/-! ## The order of a block -/

section

variable {α : Type} {isMerge isTerminator : α → Bool} {items : List α}

/-- Merges, then what is neither a merge nor a terminator, then one terminator. -/
def BlockOrder (isMerge isTerminator : α → Bool) (items : List α) : Prop :=
  ∃ merges middle last, items = merges ++ middle ++ [last] ∧ (∀ a ∈ merges, isMerge a = true) ∧
    (∀ a ∈ middle, isMerge a = false ∧ isTerminator a = false) ∧ isTerminator last = true

/-- Neighbours are enough to see the order of a block, and the last item. -/
theorem blockOrder_iff (happart : ∀ a, isMerge a = true → isTerminator a = false) :
    BlockOrder isMerge isTerminator items ↔
      (items.IsChain fun a b =>
        isTerminator a = false ∧ (isMerge b = true → isMerge a = true)) ∧
      ∃ last ∈ items.getLast?, isTerminator last = true := by
  have hnot : ∀ a, isTerminator a = true → isMerge a = false := by
    intro a ha
    by_contra hmerge
    rw [happart a (by simpa using hmerge)] at ha
    cases ha
  constructor
  · rintro ⟨merges, middle, last, rfl, hmerges, hmiddle, hlast⟩
    refine ⟨?_, last, by simp, hlast⟩
    -- Each item is compared with the next one: two merges, or a second item that is none.
    refine List.isChain_append.2 ⟨List.isChain_append.2 ⟨?_, ?_, ?_⟩, .singleton _, ?_⟩
    · refine List.Pairwise.isChain (List.pairwise_of_forall_mem_list fun a ha b hb => ?_)
      exact ⟨happart a (hmerges a ha), fun _ => hmerges a ha⟩
    · refine List.Pairwise.isChain (List.pairwise_of_forall_mem_list fun a ha b hb => ?_)
      exact ⟨(hmiddle a ha).2, fun hb' => by simp [(hmiddle b hb).1] at hb'⟩
    · intro a ha b hb
      have hb' := (hmiddle b (List.mem_of_mem_head? hb)).1
      exact ⟨happart a (hmerges a (List.mem_of_getLast? ha)), fun h => by simp [hb'] at h⟩
    · intro a ha b hb
      cases hb
      refine ⟨?_, fun h => by simp [hnot _ hlast] at h⟩
      rcases List.mem_append.1 (List.mem_of_getLast? ha) with ha | ha
      · exact happart a (hmerges a ha)
      · exact (hmiddle a ha).2
  · rintro ⟨hchain, last, hlast, hterminator⟩
    induction items with
    | nil => cases hlast
    | cons a items ih =>
      cases items with
      | nil =>
        cases hlast
        exact ⟨[], [], a, rfl, by simp, by simp, hterminator⟩
      | cons b items =>
        rw [List.isChain_cons_cons] at hchain
        obtain ⟨merges, middle, last, hsplit, hmerges, hmiddle, hend⟩ :=
          ih hchain.2 (by simpa using hlast)
        cases ha : isMerge a with
        | true =>
          refine ⟨a :: merges, middle, last, by rw [hsplit]; rfl, ?_, hmiddle, hend⟩
          exact List.forall_mem_cons.2 ⟨ha, hmerges⟩
        | false =>
          -- Behind an item that is no merge there is none.
          cases merges with
          | nil =>
            refine ⟨[], a :: middle, last, by rw [hsplit]; rfl, by simp, ?_, hend⟩
            exact List.forall_mem_cons.2 ⟨⟨ha, hchain.1.1⟩, hmiddle⟩
          | cons c merges =>
            obtain rfl : b = c := by simpa using congrArg List.head? hsplit
            simp [hchain.1.2 (hmerges b (by simp))] at ha

end

theorem Opcode.isTerminator_of_isMerge (op : Opcode) (h : op.isMerge = true) :
    op.isTerminator = false := by
  cases op <;> first | rfl | cases h

/-! ## Blocks and the table -/

namespace Function

variable {f : Function} {inst : Instruction} {id : BlockId}

/-- The instructions of the table that lie in a block. -/
def inBlock (f : Function) (id : BlockId) : List Instruction :=
  f.insts.toList.filter fun inst => inst.block = id

theorem mem_inBlock : inst ∈ f.inBlock id ↔ inst ∈ f.insts ∧ inst.block = id := by
  simp [inBlock]

/-- Blocks are numbered in their order and instructions in the order of the table, and each block
    lists the instructions of the table that lie in it. -/
structure Arranged (f : Function) : Prop where
  keys : f.blocks.keys = (List.range f.blocks.size).map BlockId.ofNat
  ids : ∀ e ∈ f.blocks.entries, e.2.id = e.1
  numbered : ∀ {k : Nat} {inst : Instruction}, f.insts[k]? = some inst → inst.id = .ofSlot k
  listed : ∀ e ∈ f.blocks.entries, e.2.instructions = (f.inBlock e.1).map Instruction.id
  housed : ∀ inst ∈ f.insts, inst.block ∈ f.blocks.keys

namespace Arranged

theorem fresh (name : String) : (Function.fresh name).Arranged where
  keys := rfl
  ids := by simp [Function.fresh, OrderedMap.empty]
  numbered := by simp [Function.fresh]
  listed := by simp [Function.fresh, OrderedMap.empty]
  housed := by simp [Function.fresh]

theorem keys_place (f : Function) (inst : Instruction) :
    (Builder.place f inst).blocks.keys = f.blocks.keys :=
  OrderedMap.keys_mapWithKey _ _

theorem size_place (f : Function) (inst : Instruction) :
    (Builder.place f inst).blocks.size = f.blocks.size := by
  simp [Builder.place, OrderedMap.size, OrderedMap.entries_modify]

theorem inBlock_place (f : Function) (inst : Instruction) (id : BlockId) :
    (Builder.place f inst).inBlock id =
      f.inBlock id ++ if inst.block = id then [inst] else [] := by
  simp only [inBlock, Builder.place, Array.toList_push, List.filter_append, List.filter_singleton,
    Bool.cond_decide]

/-- Entering an instruction with the next number into an existing block. -/
theorem place (h : f.Arranged) (hid : inst.id = .ofSlot f.insts.size)
    (hblock : inst.block ∈ f.blocks.keys) : (Builder.place f inst).Arranged where
  keys := by rw [keys_place, size_place, h.keys]
  ids := by
    intro e he
    obtain ⟨e, hmem, rfl⟩ := List.mem_map.1 he
    have hold := h.ids e hmem
    dsimp only
    split_ifs
    · exact hold
    · exact hold
  numbered := by
    intro k new hk
    simp only [Builder.place, Array.getElem?_push] at hk
    split_ifs at hk with hlast
    · cases hk
      rw [hid, hlast]
    · exact h.numbered hk
  listed := by
    intro e he
    obtain ⟨e, hmem, rfl⟩ := List.mem_map.1 he
    have hold := h.listed e hmem
    dsimp only
    rw [inBlock_place]
    by_cases heq : e.1 = inst.block
    · rw [if_pos heq, if_pos heq.symm, List.map_append, ← hold]
      rfl
    · rw [if_neg heq, if_neg (Ne.symm heq), List.append_nil, hold]
  housed := by
    intro new hnew
    rw [keys_place]
    simp only [Builder.place, Array.mem_push] at hnew
    rcases hnew with hnew | rfl
    · exact h.housed new hnew
    · exact hblock

/-- The next block number is new as long as there are numbers left. -/
theorem next_not_mem (h : f.Arranged) (hfew : f.blocks.size < UInt32.size) :
    BlockId.ofNat f.blocks.size ∉ f.blocks.keys := by
  rw [h.keys, List.mem_map]
  rintro ⟨i, hi, heq⟩
  rw [List.mem_range] at hi
  have := BlockId.ofNat_inj (by omega) hfew heq
  omega

theorem entries_createBlock {b : Builder} (h : b.function.Arranged)
    (hfew : b.function.blocks.size < UInt32.size) (label : String) :
    (b.createBlock label).function.blocks.entries =
      b.function.blocks.entries ++ [(b.nextBlock, .fresh b.nextBlock label)] :=
  OrderedMap.insertEntry_of_not_mem (h.next_not_mem hfew)

theorem createBlock {b : Builder} (h : b.function.Arranged)
    (hfew : b.function.blocks.size < UInt32.size) (label : String) :
    (b.createBlock label).function.Arranged := by
  have hentries := entries_createBlock h hfew label
  have hnone : b.function.inBlock b.nextBlock = [] := by
    refine List.eq_nil_iff_forall_not_mem.2 fun inst hinst => ?_
    obtain ⟨hmem, hblock⟩ := mem_inBlock.1 hinst
    have hhoused := h.housed inst hmem
    rw [hblock] at hhoused
    exact h.next_not_mem hfew hhoused
  have hinsts : ∀ id, (b.createBlock label).function.inBlock id = b.function.inBlock id :=
    fun _ => rfl
  have hkeys : (b.createBlock label).function.blocks.keys =
      b.function.blocks.keys ++ [b.nextBlock] := by
    unfold OrderedMap.keys
    rw [hentries, List.map_append]
    rfl
  refine ⟨?_, ?_, h.numbered, ?_, ?_⟩
  · have hsize : (b.createBlock label).function.blocks.size = b.function.blocks.size + 1 := by
      simp [OrderedMap.size, hentries]
    rw [hkeys, h.keys, hsize, List.range_succ, List.map_append]
    rfl
  · rw [hentries, List.forall_mem_append]
    exact ⟨h.ids, by simp [Block.fresh]⟩
  · simp only [hinsts]
    rw [hentries, List.forall_mem_append]
    refine ⟨h.listed, ?_⟩
    simp [Block.fresh, hnone]
  · intro inst hinst
    rw [hkeys]
    exact List.mem_append_left _ (h.housed inst hinst)

/-- Naming changes no part of an instruction but its name. -/
theorem map_inBlock_setName {β : Type} (b : Builder) (slot : InstId) (name : String)
    (id : BlockId) {part : Instruction → β}
    (hpart : ∀ inst : Instruction, part { inst with name := some name } = part inst) :
    ((b.setName slot name).function.inBlock id).map part = (b.function.inBlock id).map part := by
  have hsplit : ∀ insts : List Instruction,
      (insts.filter fun inst => inst.block = id).map part =
        (insts.map fun inst => (inst.block, part inst)).filterMap fun p =>
          if p.1 = id then some p.2 else none := by
    intro insts
    induction insts with
    | nil => rfl
    | cons inst insts ih =>
      by_cases hblock : inst.block = id
      · simp [hblock, ih]
      · simp [hblock, ih]
  unfold inBlock
  rw [hsplit, hsplit]
  congr 1
  refine List.ext_getElem? fun i => ?_
  simp only [Builder.setName, List.getElem?_map, Array.getElem?_toList, Array.getElem?_modify]
  split_ifs
  · cases b.function.insts[i]? with
    | none => rfl
    | some inst => simp [hpart]
  · rfl

theorem setName {b : Builder} (h : b.function.Arranged) (slot : InstId) (name : String) :
    (b.setName slot name).function.Arranged where
  keys := h.keys
  ids := h.ids
  numbered := Builder.TableNumbered.setName h.numbered slot name
  listed := by
    intro e he
    rw [map_inBlock_setName b slot name e.1 (fun _ => rfl)]
    exact h.listed e he
  housed := by
    intro inst hinst
    obtain ⟨k, hk⟩ := Array.mem_iff_getElem?.1 hinst
    simp only [Builder.setName, Array.getElem?_modify] at hk
    split_ifs at hk
    · obtain ⟨old, hold, rfl⟩ := Option.map_eq_some_iff.1 hk
      exact h.housed old (Array.mem_of_getElem? hold)
    · exact h.housed inst (Array.mem_of_getElem? hk)

/-- The number of an instruction leads back to it. -/
theorem inst?_id (h : f.Arranged) (hfew : f.insts.size ≤ UInt32.size) (hinst : inst ∈ f.insts) :
    f.inst? inst.id = some inst := by
  obtain ⟨k, hk⟩ := Array.mem_iff_getElem?.1 hinst
  have hlt : k < f.insts.size := (Array.getElem?_eq_some_iff.1 hk).1
  rw [Function.inst?, h.numbered hk, InstId.slot_ofSlot (by omega), hk]

theorem map_inst? (h : f.Arranged) (hfew : f.insts.size ≤ UInt32.size) {e : BlockId × Block}
    (he : e ∈ f.blocks.entries) : e.2.instructions.map f.inst? = (f.inBlock e.1).map some := by
  rw [h.listed e he, List.map_map]
  refine List.map_congr_left fun inst hinst => ?_
  exact h.inst?_id hfew (mem_inBlock.1 hinst).1

/-- The last instruction of a block. -/
theorem last_eq (h : f.Arranged) (hfew : f.insts.size ≤ UInt32.size) {e : BlockId × Block}
    (he : e ∈ f.blocks.entries) : e.2.last?.bind f.inst? = (f.inBlock e.1).getLast? := by
  have hlast := congrArg List.getLast? (h.map_inst? hfew he)
  rw [List.getLast?_map, List.getLast?_map] at hlast
  unfold Block.last?
  cases hid : e.2.instructions.getLast? with
  | none =>
    rw [hid] at hlast
    cases hmem : (f.inBlock e.1).getLast? with
    | none => rfl
    | some inst => simp [hmem] at hlast
  | some id =>
    rw [hid] at hlast
    cases hmem : (f.inBlock e.1).getLast? with
    | none => simp [hmem] at hlast
    | some inst => simpa [hmem] using hlast

end Arranged

/-- In every block each instruction may stand where it does. -/
def Orderly (f : Function) : Prop := ∀ id, (f.inBlock id).IsChain Layout.MayFollow

theorem orderly_place (f : Function) (inst : Instruction) :
    (Builder.place f inst).Orderly ↔
      f.Orderly ∧ ∀ last ∈ (f.inBlock inst.block).getLast?, Layout.MayFollow last inst := by
  unfold Orderly
  constructor
  · intro h
    have hsplit := h inst.block
    rw [Arranged.inBlock_place, if_pos rfl, List.isChain_append] at hsplit
    refine ⟨fun id => ?_, fun last hlast => hsplit.2.2 last hlast inst (by simp)⟩
    have hid := h id
    rw [Arranged.inBlock_place, List.isChain_append] at hid
    exact hid.1
  · rintro ⟨h, hlast⟩ id
    rw [Arranged.inBlock_place]
    split_ifs with heq
    · subst heq
      refine List.isChain_append.2 ⟨h _, .singleton _, ?_⟩
      rintro last hmem _ ⟨⟩
      exact hlast last hmem
    · rw [List.append_nil]
      exact h id

end Function

/-! ## Functions as they are handed over -/

/-- What a function is like that a builder has handed over. -/
structure Function.WellBuilt (f : Function) : Prop where
  /-- Blocks are stored under their numbers, which go up from zero. -/
  keys : f.blocks.keys.map BlockId.toNat = List.range f.blocks.size
  ids : ∀ e ∈ f.blocks.entries, e.2.id = e.1
  slots : ∀ {k : Nat} {inst : Instruction}, f.insts[k]? = some inst → inst.id.slot = k
  /-- Every instruction is listed once. -/
  once : ∀ inst ∈ f.insts, (f.blocks.values.flatMap Block.instructions).count inst.id = 1
  /-- It is listed in the block that it lies in. -/
  located : ∀ inst ∈ f.insts, ∃ block, f.block? inst.block = some block ∧
    inst.id ∈ block.instructions
  /-- Nothing else is listed. -/
  listed : ∀ block ∈ f.blocks.values, ∀ id ∈ block.instructions, (f.inst? id).isSome = true
  targets : ∀ inst ∈ f.insts, inst.targets ≠ [] → inst.isTerminator = true
  incoming : ∀ inst ∈ f.insts, inst.incoming ≠ [] → inst.isMerge = true

namespace Function.Arranged

variable {f : Function}

theorem eq_of_id_eq (h : f.Arranged) (hfew : f.insts.size ≤ UInt32.size) {a b : Instruction}
    (ha : a ∈ f.insts) (hb : b ∈ f.insts) (heq : a.id = b.id) : a = b := by
  have hfirst := h.inst?_id hfew ha
  rw [heq, h.inst?_id hfew hb] at hfirst
  exact (Option.some.inj hfirst).symm

/-- The links between blocks leave numbers and lists alone. -/
theorem linked (h : f.Arranged) : f.linked.Arranged where
  keys := by
    rw [f.size_linked, Function.linked, OrderedMap.keys_mapWithKey, h.keys]
  ids := by
    intro e he
    obtain ⟨e, hmem, rfl⟩ := List.mem_map.1 he
    exact h.ids e hmem
  numbered := h.numbered
  listed := by
    intro e he
    obtain ⟨e, hmem, rfl⟩ := List.mem_map.1 he
    exact h.listed e hmem
  housed := by
    intro inst hinst
    rw [Function.linked, OrderedMap.keys_mapWithKey]
    exact h.housed inst hinst

theorem nodup_id (h : f.Arranged) (hfew : f.insts.size ≤ UInt32.size) :
    (f.insts.toList.map Instruction.id).Nodup := by
  refine List.pairwise_map.2 (List.pairwise_iff_getElem.2 fun i j hi hj hij heq => ?_)
  rw [Array.length_toList] at hi hj
  rw [Array.getElem_toList, Array.getElem_toList, h.numbered (Array.getElem?_eq_getElem hi),
    h.numbered (Array.getElem?_eq_getElem hj)] at heq
  have hslot := congrArg InstId.slot heq
  rw [InstId.slot_ofSlot (by omega), InstId.slot_ofSlot (by omega)] at hslot
  omega

/-- No instruction is listed twice, neither in one block nor in two. -/
theorem nodup_listed (h : f.Arranged) (hfew : f.insts.size ≤ UInt32.size) :
    (f.blocks.values.flatMap Block.instructions).Nodup := by
  have hlists : f.blocks.values.flatMap Block.instructions =
      f.blocks.entries.flatMap fun e => (f.inBlock e.1).map Instruction.id := by
    rw [OrderedMap.values, List.flatMap_map]
    exact List.flatMap_congr h.listed
  rw [hlists, List.nodup_flatMap]
  constructor
  · intro e _
    exact (h.nodup_id hfew).sublist (List.filter_sublist.map _)
  · refine (List.pairwise_map.1 f.blocks.nodupKeys).imp fun hne id hid hid' => ?_
    obtain ⟨a, ha, rfl⟩ := List.mem_map.1 hid
    obtain ⟨b, hb, heq⟩ := List.mem_map.1 hid'
    obtain ⟨ha, hblock⟩ := mem_inBlock.1 ha
    obtain ⟨hb, hblock'⟩ := mem_inBlock.1 hb
    obtain rfl := h.eq_of_id_eq hfew hb ha heq
    exact hne (hblock.symm.trans hblock')

/-- An instruction is listed in the block that it lies in. -/
theorem exists_block (h : f.Arranged) {inst : Instruction} (hinst : inst ∈ f.insts) :
    ∃ e ∈ f.blocks.entries, e.1 = inst.block ∧ inst.id ∈ e.2.instructions := by
  obtain ⟨e, he, heq⟩ := List.mem_map.1 (h.housed inst hinst)
  refine ⟨e, he, heq, ?_⟩
  rw [h.listed e he]
  exact List.mem_map.2 ⟨inst, mem_inBlock.2 ⟨hinst, heq.symm⟩, rfl⟩

theorem wellBuilt (h : f.Arranged) (hblocks : f.blocks.size < UInt32.size)
    (hinsts : f.insts.size ≤ UInt32.size)
    (htargets : ∀ inst ∈ f.insts, inst.targets ≠ [] → inst.isTerminator = true)
    (hincoming : ∀ inst ∈ f.insts, inst.incoming ≠ [] → inst.isMerge = true) : f.WellBuilt where
  keys := by
    rw [h.keys, List.map_map]
    refine (List.map_congr_left fun i hi => ?_).trans (List.map_id _)
    rw [List.mem_range] at hi
    exact BlockId.toNat_ofNat (by omega)
  ids := h.ids
  slots := by
    intro k inst hk
    have hlt : k < f.insts.size := (Array.getElem?_eq_some_iff.1 hk).1
    rw [h.numbered hk, InstId.slot_ofSlot (by omega)]
  once := by
    intro inst hinst
    obtain ⟨e, he, -, hid⟩ := h.exists_block hinst
    refine List.count_eq_one_of_mem (h.nodup_listed hinsts) (List.mem_flatMap.2 ⟨e.2, ?_, hid⟩)
    exact List.mem_map.2 ⟨e, he, rfl⟩
  located := by
    intro inst hinst
    obtain ⟨e, he, heq, hid⟩ := h.exists_block hinst
    exact ⟨e.2, OrderedMap.get?_eq_some_iff.2 (heq ▸ he), hid⟩
  listed := by
    intro block hblock id hid
    obtain ⟨e, he, rfl⟩ := List.mem_map.1 hblock
    rw [h.listed e he] at hid
    obtain ⟨inst, hinst, rfl⟩ := List.mem_map.1 hid
    rw [h.inst?_id hinsts (mem_inBlock.1 hinst).1]
    rfl
  targets := htargets
  incoming := hincoming

end Function.Arranged

end FlowFacts
