import FlowFacts.Proofs.BuiltFunctions
import FlowFacts.Proofs.ContextQueries

/-!
# The graph of a function is its control flow

Control passes from an instruction to the next one of its block, and from the terminator of a block
to the first instruction of each of its targets. The forward graph of a function that a builder has
handed over has exactly these edges, and the one from the virtual node to the first instruction.
Edges are collected from the links on either side, and inside a block separately for the merges and
for what follows them; none of this adds an edge or leaves one out.

Main results:

* `Function.complete_of_build`: what is known of a function that a builder hands over.
* `Function.Complete.indexOf?_eq_some_iff`: indices and numbers determine each other.
* `Function.Complete.mem_flows`: the collected transfers of control are those of the blocks.
* `FlowGraph.isControlFlow_build`: numbering and edges of the graph.
-/

namespace FlowFacts

/-! ## Neighbours -/

namespace FlowGraph

section

variable {α : Type} {x y : α} {xs ys : List α}

theorem neighbours_cons_cons (x y : α) (xs : List α) :
    neighbours (x :: y :: xs) = (x, y) :: neighbours (y :: xs) := rfl

/-- Neighbours in two lists put together: in one of them, or where they meet. -/
theorem mem_neighbours_append :
    (x, y) ∈ neighbours (xs ++ ys) ↔
      (x, y) ∈ neighbours xs ∨ (xs.getLast? = some x ∧ ys.head? = some y) ∨
        (x, y) ∈ neighbours ys := by
  induction xs with
  | nil => simp [neighbours]
  | cons a xs ih =>
    cases xs with
    | nil =>
      cases ys with
      | nil => simp [neighbours]
      | cons b ys =>
        rw [List.singleton_append, neighbours_cons_cons]
        simp [neighbours, eq_comm]
    | cons b xs =>
      rw [List.cons_append, List.cons_append, neighbours_cons_cons, neighbours_cons_cons,
        List.mem_cons, List.mem_cons, ← List.cons_append, ih, List.getLast?_cons_cons, or_assoc]

theorem mem_neighbours : (x, y) ∈ neighbours xs ↔
    ∃ before after, xs = before ++ x :: y :: after := by
  constructor
  · intro h
    induction xs with
    | nil => simp [neighbours] at h
    | cons a xs ih =>
      cases xs with
      | nil => simp [neighbours] at h
      | cons b xs =>
        rw [neighbours_cons_cons, List.mem_cons] at h
        rcases h with h | h
        · cases h
          exact ⟨[], xs, rfl⟩
        · obtain ⟨before, after, heq⟩ := ih h
          exact ⟨a :: before, after, by rw [heq, List.cons_append]⟩
  · rintro ⟨before, after, rfl⟩
    rw [mem_neighbours_append, neighbours_cons_cons]
    exact .inr (.inr List.mem_cons_self)

end

/-! ## Transfers of control at a block -/

section

variable {f : Function} {block : Block} {first i j : InstId}

theorem mem_flowsIn : (i, j) ∈ flowsIn f block first ↔
    j = first ∧ ∃ pred ∈ block.predecessors, ∃ source, f.block? pred = some source ∧
      source.last? = some i := by
  simp only [flowsIn, List.mem_filterMap, Option.map_eq_some_iff, Option.bind_eq_some_iff,
    Prod.mk.injEq]
  constructor
  · rintro ⟨pred, hpred, _, ⟨source, hsource, hlast⟩, rfl, rfl⟩
    exact ⟨rfl, pred, hpred, source, hsource, hlast⟩
  · rintro ⟨rfl, pred, hpred, source, hsource, hlast⟩
    exact ⟨pred, hpred, i, ⟨source, hsource, hlast⟩, rfl, rfl⟩

theorem mem_flowsOut : (i, j) ∈ flowsOut f block ↔
    block.last? = some i ∧ ∃ succ ∈ block.successors, ∃ target, f.block? succ = some target ∧
      target.first? = some j := by
  unfold flowsOut
  cases block.last? with
  | none => simp
  | some last =>
    simp only [List.mem_filterMap, Option.map_eq_some_iff, Option.bind_eq_some_iff,
      Prod.mk.injEq, Option.some.injEq]
    constructor
    · rintro ⟨succ, hsucc, _, ⟨target, htarget, hfirst⟩, rfl, rfl⟩
      exact ⟨rfl, succ, hsucc, target, htarget, hfirst⟩
    · rintro ⟨rfl, succ, hsucc, target, htarget, hfirst⟩
      exact ⟨succ, hsucc, j, ⟨target, htarget, hfirst⟩, rfl, rfl⟩

theorem mem_flowsAtMerges : (i, j) ∈ flowsAtMerges f block ↔
    (i, j) ∈ neighbours (leadingMerges f block) ∨
      ((leadingMerges f block).getLast? = some i ∧ (afterMerges f block).head? = some j) := by
  unfold flowsAtMerges
  rw [List.mem_append]
  refine or_congr_right ?_
  cases (leadingMerges f block).getLast? with
  | none => simp
  | some merge =>
    cases (afterMerges f block).head? with
    | none => simp
    | some next => simp [eq_comm]

/-- The chain of merges and the chain behind it are the chain of the whole block, as long as
    terminators stand at the end. -/
theorem mem_flows_chain
    (hend : ∀ i j, (i, j) ∈ neighbours block.instructions → isTerminatorAt f i = false) :
    (i, j) ∈ flowsAtMerges f block ∨ (i, j) ∈ flowsInside f block ↔
      (i, j) ∈ neighbours block.instructions := by
  have hsplit : leadingMerges f block ++ afterMerges f block = block.instructions :=
    List.takeWhile_append_dropWhile
  rw [← hsplit] at hend ⊢
  have hinside : (i, j) ∈ flowsInside f block ↔ (i, j) ∈ neighbours (afterMerges f block) := by
    -- The check for terminators is made behind the merges only, and never leaves anything out.
    unfold flowsInside
    rw [List.mem_filter, and_iff_left_iff_imp]
    intro hmem
    have hnot := hend i j (mem_neighbours_append.2 (.inr (.inr hmem)))
    simp [hnot]
  rw [mem_flowsAtMerges, hinside, mem_neighbours_append, or_assoc]

end

/-! ## Indices -/

section

variable {g : FlowGraph} {id : InstId} {n : Nat}

theorem exists_indexOf? (h : id ∈ g.insts.toList) : ∃ n, g.indexOf? id = some n := by
  cases hn : g.indexOf? id with
  | some n => exact ⟨n, rfl⟩
  | none =>
    rw [indexOf?, indexIn, Option.map_eq_none_iff, List.idxOf?_eq_none_iff] at hn
    exact absurd (List.mem_reverse.2 h) hn

/-- As long as no number occurs twice, indices and numbers determine each other. -/
theorem indexOf?_eq_some_iff (hnodup : g.insts.toList.Nodup) :
    g.indexOf? id = some n ↔ g.instAt? n = some id := by
  constructor
  · exact instAt?_of_indexOf?
  · intro h
    cases n with
    | zero => cases h
    | succ k =>
      have hk : g.insts.toList[k]? = some id := Array.getElem?_toList.trans h
      obtain ⟨m, hm⟩ := exists_indexOf? (List.mem_of_getElem? hk)
      have hback := instAt?_of_indexOf? hm
      cases m with
      | zero => cases hback
      | succ l =>
        have hl : g.insts.toList[l]? = some id := Array.getElem?_toList.trans hback
        have hlt : k < g.insts.toList.length := (List.getElem?_eq_some_iff.1 hk).1
        rw [hm, (List.getElem?_inj hlt hnodup).1 (hk.trans hl.symm)]

/-- The instruction at an index is one of the function. -/
theorem mem_insts_of_instruction? {f : Function} {inst : Instruction}
    (h : g.instruction? f n = some inst) : inst ∈ f.insts := by
  obtain ⟨id, -, hid⟩ := Option.bind_eq_some_iff.1 h
  exact Array.mem_of_getElem? hid

end

end FlowGraph

/-! ## Complete functions -/

namespace Function

variable {f : Function} {block : Block} {inst : Instruction} {i j : InstId} {id : BlockId}

theorem mem_targetsOf : id ∈ f.targetsOf block ↔
    ∃ i last, block.last? = some i ∧ f.inst? i = some last ∧ last.isTerminator = true ∧
      id ∈ last.targets := by
  unfold targetsOf
  cases hlast : block.last? with
  | none => simp
  | some i =>
    rw [Option.bind_some]
    cases hinst : f.inst? i with
    | none => simp [hinst]
    | some last =>
      cases hterminator : last.isTerminator with
      | false => simp [hinst, hterminator]
      | true => simp [hinst, hterminator]

theorem mem_transfers {source target : BlockId} : (source, target) ∈ f.transfers ↔
    ∃ block ∈ f.blocks.values, block.id = source ∧ target ∈ f.targetsOf block := by
  simp only [transfers, List.mem_flatMap, List.mem_map, Prod.mk.injEq]
  constructor
  · rintro ⟨block, hblock, _, htarget, rfl, rfl⟩
    exact ⟨block, hblock, rfl, htarget⟩
  · rintro ⟨block, hblock, rfl, htarget⟩
    exact ⟨block, hblock, target, htarget, rfl, rfl⟩

/-- Control passes from one instruction straight to another one: the other one stands right behind
    it in a block, or it is the terminator of a block and the other one is the first instruction of
    one of its targets. -/
inductive Passes (f : Function) : InstId → InstId → Prop
  | next {block : Block} {before after : List InstId} {i j : InstId} :
      block ∈ f.blocks.values → block.instructions = before ++ i :: j :: after → f.Passes i j
  | jump {source target : Block} {last : Instruction} {i j : InstId} :
      source ∈ f.blocks.values → source.last? = some i → f.inst? i = some last →
      last.isTerminator = true → target ∈ f.blocks.values → target.id ∈ last.targets →
      target.first? = some j → f.Passes i j

/-- Control passes from the last instruction of a block to the first one of each of its targets. -/
theorem passes_of_target {source target : Block} (hsource : source ∈ f.blocks.values)
    (htarget : target ∈ f.blocks.values) (hid : target.id ∈ f.targetsOf source)
    (hi : source.last? = some i) (hj : target.first? = some j) : f.Passes i j := by
  obtain ⟨k, last, hk, hlast, hterminator, hmem⟩ := mem_targetsOf.1 hid
  obtain rfl : k = i := Option.some.inj (hk.symm.trans hi)
  exact .jump hsource hi hlast hterminator htarget hmem hj

/-- The function was handed over by a builder. -/
def Built (f : Function) : Prop :=
  ∃ (name : String) (steps : List Builder.Step), ((Builder.fresh name).run steps).build = .ok f

/-- What is known of a function that a builder has handed over: blocks and table agree, each block
    has its merges in front and its one terminator at the end, and the links between blocks are
    those of the terminators. -/
structure Complete (f : Function) : Prop where
  arranged : f.Arranged
  few_insts : f.insts.size ≤ UInt32.size
  nonempty : f.blocks.values ≠ []
  orderly : f.Orderly
  terminated : ∀ block ∈ f.blocks.values, ∃ last ∈ (f.inBlock block.id).getLast?,
    last.isTerminator = true
  predecessors : ∀ block ∈ f.blocks.values, ∀ {id : BlockId}, id ∈ block.predecessors ↔
    ∃ source ∈ f.blocks.values, source.id = id ∧ block.id ∈ f.targetsOf source
  successors : ∀ block ∈ f.blocks.values, ∀ {id : BlockId}, id ∈ block.successors ↔
    id ∈ f.targetsOf block

namespace Arranged

theorem mem_entries (h : f.Arranged) (hblock : block ∈ f.blocks.values) :
    (block.id, block) ∈ f.blocks.entries := by
  obtain ⟨e, he, rfl⟩ := List.mem_map.1 hblock
  rw [h.ids e he]
  exact he

theorem block?_id (h : f.Arranged) (hblock : block ∈ f.blocks.values) :
    f.block? block.id = some block :=
  OrderedMap.get?_eq_some_iff.2 (h.mem_entries hblock)

theorem mem_values_of_block? (hblock : f.block? id = some block) : block ∈ f.blocks.values :=
  List.mem_map.2 ⟨(id, block), OrderedMap.get?_eq_some_iff.1 hblock, rfl⟩

theorem instructions_eq (h : f.Arranged) (hblock : block ∈ f.blocks.values) :
    block.instructions = (f.inBlock block.id).map Instruction.id :=
  h.listed _ (h.mem_entries hblock)

end Arranged

/-- Transfers of control are read off the terminators, whatever links the blocks are given. -/
theorem transfers_relinked (f : Function) (preds succs : BlockId → Block → List BlockId) :
    transfers { f with
      blocks := f.blocks.mapWithKey fun id block =>
        { block with predecessors := preds id block, successors := succs id block } } =
      f.transfers := by
  unfold transfers
  rw [OrderedMap.values, OrderedMap.values, OrderedMap.mapWithKey, List.flatMap_map,
    List.flatMap_map, List.flatMap_map]
  rfl

theorem transfers_linked (f : Function) : f.linked.transfers = f.transfers :=
  transfers_relinked f _ _

theorem mem_links (hblock : f.linked.block? id = some block) {other : BlockId} :
    (other ∈ block.predecessors ↔ (other, id) ∈ f.linked.transfers) ∧
      (other ∈ block.successors ↔ (id, other) ∈ f.linked.transfers) := by
  rw [block?_linked, Option.map_eq_some_iff] at hblock
  obtain ⟨old, -, rfl⟩ := hblock
  rw [transfers_linked]
  simp

/-- Once the links are derived, they are those of the terminators. -/
theorem links_linked (h : f.Arranged) (hblock : block ∈ f.linked.blocks.values) :
    (id ∈ block.predecessors ↔
      ∃ source ∈ f.linked.blocks.values, source.id = id ∧ block.id ∈ f.linked.targetsOf source) ∧
    (id ∈ block.successors ↔ id ∈ f.linked.targetsOf block) := by
  have hfound := h.linked.block?_id hblock
  rw [(mem_links hfound).1, (mem_links hfound).2, mem_transfers, mem_transfers]
  refine ⟨Iff.rfl, ?_⟩
  constructor
  · rintro ⟨other, hother, hid, htarget⟩
    have hsame := h.linked.block?_id hother
    rw [hid, hfound] at hsame
    rwa [Option.some.inj hsame]
  · intro htarget
    exact ⟨block, hblock, rfl, htarget⟩

/-- A function that a builder hands over is complete. Numbers are 32 bits wide, so there may not be
    more blocks or instructions than there are numbers. -/
theorem complete_of_build (h : f.Built) (hblocks : f.blocks.size < UInt32.size)
    (hinsts : f.insts.size ≤ UInt32.size) : f.Complete := by
  obtain ⟨name, steps, hbuild⟩ := h
  obtain ⟨⟨hfaults, hclosing⟩, rfl⟩ := Builder.build_eq_ok_iff.1 hbuild
  rw [size_linked] at hblocks
  have harranged := (Builder.consistent_run hblocks).arranged
  obtain ⟨-, horderly⟩ := (Builder.faults_run_eq_nil_iff hblocks hinsts).1 hfaults
  obtain ⟨hnonempty, hlast, -⟩ := (Builder.closingFaults_eq_nil_iff harranged hinsts).1 hclosing
  refine ⟨harranged.linked, hinsts, ?_, horderly, ?_, ?_, ?_⟩
  · intro hnil
    rw [OrderedMap.values, linked, OrderedMap.mapWithKey, List.map_eq_nil_iff,
      List.map_eq_nil_iff] at hnil
    simp [OrderedMap.isEmpty, hnil] at hnonempty
  · intro block hblock
    have hkey : block.id ∈ ((Builder.fresh name).run steps).function.blocks.keys := by
      rw [← OrderedMap.keys_mapWithKey]
      exact List.mem_map.2 ⟨_, harranged.linked.mem_entries hblock, rfl⟩
    obtain ⟨e, he, heq⟩ := List.mem_map.1 hkey
    rw [← heq]
    exact hlast e he
  · intro block hblock id
    exact (links_linked harranged hblock).1
  · intro block hblock id
    exact (links_linked harranged hblock).2

namespace Complete

/-! ### Numbers and indices -/

theorem instructionsOf_eq (h : f.Complete) (hblock : block ∈ f.blocks.values) :
    f.instructionsOf block = f.inBlock block.id := by
  have hmap := h.arranged.map_inst? h.few_insts (h.arranged.mem_entries hblock)
  calc f.instructionsOf block = (block.instructions.map f.inst?).filterMap id := by
        rw [List.filterMap_map]
        rfl
    _ = ((f.inBlock block.id).map some).filterMap id := congrArg _ hmap
    _ = f.inBlock block.id := by
        rw [List.filterMap_map]
        exact List.filterMap_some

/-- Instructions are counted in block order. -/
theorem numbering_eq (h : f.Complete) :
    (FlowGraph.numbering f).toList = f.blocks.values.flatMap Block.instructions := by
  unfold FlowGraph.numbering instructions
  rw [List.toList_toArray, List.map_flatMap]
  refine List.flatMap_congr fun block hblock => ?_
  rw [h.instructionsOf_eq hblock, h.arranged.instructions_eq hblock]

/-- A number has an index if and only if it is that of an instruction. -/
theorem mem_numbering (h : f.Complete) :
    i ∈ (FlowGraph.numbering f).toList ↔ ∃ inst, f.inst? i = some inst := by
  rw [h.numbering_eq, List.mem_flatMap]
  constructor
  · rintro ⟨block, hblock, hi⟩
    rw [h.arranged.instructions_eq hblock] at hi
    obtain ⟨inst, hinst, rfl⟩ := List.mem_map.1 hi
    exact ⟨inst, h.arranged.inst?_id h.few_insts (mem_inBlock.1 hinst).1⟩
  · rintro ⟨inst, hinst⟩
    have hmem := Array.mem_of_getElem? hinst
    obtain ⟨e, he, -, hid⟩ := h.arranged.exists_block hmem
    rw [h.arranged.numbered hinst, InstId.ofSlot_slot] at hid
    exact ⟨e.2, List.mem_map.2 ⟨e, he, rfl⟩, hid⟩

theorem nodup_numbering (h : f.Complete) : (FlowGraph.numbering f).toList.Nodup := by
  rw [h.numbering_eq]
  exact h.arranged.nodup_listed h.few_insts

theorem size_numbering (h : f.Complete) : (FlowGraph.numbering f).size = f.insts.size := by
  have hperm : (FlowGraph.numbering f).toList.Perm (f.insts.toList.map Instruction.id) := by
    refine (List.perm_ext_iff_of_nodup h.nodup_numbering (h.arranged.nodup_id h.few_insts)).2 ?_
    intro i
    rw [h.mem_numbering, List.mem_map]
    constructor
    · rintro ⟨inst, hinst⟩
      refine ⟨inst, Array.mem_toList_iff.2 (Array.mem_of_getElem? hinst), ?_⟩
      rw [h.arranged.numbered hinst, InstId.ofSlot_slot]
    · rintro ⟨inst, hinst, rfl⟩
      exact ⟨inst, h.arranged.inst?_id h.few_insts (Array.mem_toList_iff.1 hinst)⟩
  simpa using hperm.length_eq

theorem indexOf?_eq_some_iff (h : f.Complete) (direction : Direction) {n : Nat} :
    (FlowGraph.build f direction).indexOf? i = some n ↔
      (FlowGraph.build f direction).instAt? n = some i :=
  FlowGraph.indexOf?_eq_some_iff h.nodup_numbering

theorem exists_index (h : f.Complete) (direction : Direction) (hinst : inst ∈ f.insts) :
    ∃ n, (FlowGraph.build f direction).indexOf? inst.id = some n :=
  FlowGraph.exists_indexOf? (h.mem_numbering.2 ⟨inst, h.arranged.inst?_id h.few_insts hinst⟩)

/-- Every instruction has a node. -/
theorem exists_node (h : f.Complete) (direction : Direction) (hinst : inst ∈ f.insts) :
    ∃ n, (FlowGraph.build f direction).instruction? f n = some inst := by
  obtain ⟨n, hn⟩ := h.exists_index direction hinst
  exact ⟨n, Option.bind_eq_some_iff.2 ⟨inst.id, FlowGraph.instAt?_of_indexOf? hn,
    h.arranged.inst?_id h.few_insts hinst⟩⟩

/-! ### Edges -/

/-- No terminator has another instruction behind it. -/
theorem isTerminatorAt_of_neighbours (h : f.Complete) (hblock : block ∈ f.blocks.values)
    (hij : (i, j) ∈ FlowGraph.neighbours block.instructions) :
    FlowGraph.isTerminatorAt f i = false := by
  obtain ⟨before, after, hsplit⟩ := FlowGraph.mem_neighbours.1 hij
  rw [h.arranged.instructions_eq hblock] at hsplit
  -- The two numbers belong to neighbouring instructions, and the first of these may be followed.
  obtain ⟨_, _, hin, -, hpair⟩ := List.map_eq_append_iff.1 hsplit
  obtain ⟨a, _, rfl, rfl, hrest⟩ := List.map_eq_cons_iff.1 hpair
  obtain ⟨b, _, rfl, -, -⟩ := List.map_eq_cons_iff.1 hrest
  have hchain := h.orderly block.id
  rw [hin, List.isChain_append] at hchain
  have hfollow : Layout.MayFollow a b := (List.isChain_cons_cons.1 hchain.2.1).1
  have hmem : a ∈ f.insts := by
    refine (mem_inBlock.1 (?_ : a ∈ f.inBlock block.id)).1
    rw [hin]
    simp
  unfold FlowGraph.isTerminatorAt
  rw [h.arranged.inst?_id h.few_insts hmem]
  exact hfollow.1

theorem exists_first? (h : f.Complete) (hblock : block ∈ f.blocks.values) :
    ∃ i, block.first? = some i := by
  obtain ⟨last, hlast, -⟩ := h.terminated block hblock
  cases hfirst : block.first? with
  | some i => exact ⟨i, rfl⟩
  | none =>
    rw [Block.first?, List.head?_eq_none_iff, h.arranged.instructions_eq hblock,
      List.map_eq_nil_iff] at hfirst
    simp [hfirst] at hlast

/-- The two blocks of a transfer show up in each other's links. -/
theorem mem_predecessors_block? (h : f.Complete) (hblock : block ∈ f.blocks.values)
    {source : Block} : (∃ pred ∈ block.predecessors, f.block? pred = some source) ↔
      source ∈ f.blocks.values ∧ block.id ∈ f.targetsOf source := by
  constructor
  · rintro ⟨pred, hpred, hsource⟩
    obtain ⟨other, hother, rfl, htarget⟩ := (h.predecessors block hblock).1 hpred
    obtain rfl : other = source := by
      rw [h.arranged.block?_id hother] at hsource
      exact Option.some.inj hsource
    exact ⟨hother, htarget⟩
  · rintro ⟨hsource, htarget⟩
    exact ⟨source.id, (h.predecessors block hblock).2 ⟨source, hsource, rfl, htarget⟩,
      h.arranged.block?_id hsource⟩

theorem mem_successors_block? (h : f.Complete) (hblock : block ∈ f.blocks.values)
    {target : Block} : (∃ succ ∈ block.successors, f.block? succ = some target) ↔
      target ∈ f.blocks.values ∧ target.id ∈ f.targetsOf block := by
  constructor
  · rintro ⟨succ, hsucc, htarget⟩
    have hmem := Arranged.mem_values_of_block? htarget
    have hid : target.id = succ := h.arranged.ids _ (OrderedMap.get?_eq_some_iff.1 htarget)
    exact ⟨hmem, hid ▸ (h.successors block hblock).1 hsucc⟩
  · rintro ⟨htarget, hid⟩
    exact ⟨target.id, (h.successors block hblock).2 hid, h.arranged.block?_id htarget⟩

/-- What is collected at a block: the transfers into it, those inside it and those out of it. -/
theorem mem_flowsAt (h : f.Complete) (hblock : block ∈ f.blocks.values) :
    (i, j) ∈ FlowGraph.flowsAt f block ↔
      (∃ source ∈ f.blocks.values, block.id ∈ f.targetsOf source ∧ source.last? = some i ∧
        block.first? = some j) ∨
      (i, j) ∈ FlowGraph.neighbours block.instructions ∨
      ∃ target ∈ f.blocks.values, target.id ∈ f.targetsOf block ∧ block.last? = some i ∧
        target.first? = some j := by
  obtain ⟨first, hfirst⟩ := h.exists_first? hblock
  have hin : (i, j) ∈ FlowGraph.flowsIn f block first ↔ ∃ source ∈ f.blocks.values,
      block.id ∈ f.targetsOf source ∧ source.last? = some i ∧ block.first? = some j := by
    rw [FlowGraph.mem_flowsIn, hfirst]
    constructor
    · rintro ⟨rfl, pred, hpred, source, hsource, hi⟩
      obtain ⟨hmem, hid⟩ := (h.mem_predecessors_block? hblock).1 ⟨pred, hpred, hsource⟩
      exact ⟨source, hmem, hid, hi, rfl⟩
    · rintro ⟨source, hmem, hid, hi, hj⟩
      obtain ⟨pred, hpred, hsource⟩ := (h.mem_predecessors_block? hblock).2 ⟨hmem, hid⟩
      exact ⟨(Option.some.inj hj).symm, pred, hpred, source, hsource, hi⟩
  have hout : (i, j) ∈ FlowGraph.flowsOut f block ↔ ∃ target ∈ f.blocks.values,
      target.id ∈ f.targetsOf block ∧ block.last? = some i ∧ target.first? = some j := by
    rw [FlowGraph.mem_flowsOut]
    constructor
    · rintro ⟨hi, succ, hsucc, target, htarget, hj⟩
      obtain ⟨hmem, hid⟩ := (h.mem_successors_block? hblock).1 ⟨succ, hsucc, htarget⟩
      exact ⟨target, hmem, hid, hi, hj⟩
    · rintro ⟨target, hmem, hid, hi, hj⟩
      obtain ⟨succ, hsucc, htarget⟩ := (h.mem_successors_block? hblock).2 ⟨hmem, hid⟩
      exact ⟨hi, succ, hsucc, target, htarget, hj⟩
  have hchain := FlowGraph.mem_flows_chain (i := i) (j := j)
    fun _ _ => h.isTerminatorAt_of_neighbours hblock
  unfold FlowGraph.flowsAt
  rw [hfirst, List.mem_append, List.mem_append, List.mem_append, or_assoc, or_assoc,
    ← or_assoc (a := (i, j) ∈ FlowGraph.flowsAtMerges f block), hchain, hin, hout, hfirst]

/-- The collected transfers of control are those of the blocks. -/
theorem mem_flows (h : f.Complete) : (i, j) ∈ FlowGraph.flows f ↔ f.Passes i j := by
  unfold FlowGraph.flows
  rw [List.mem_flatMap]
  constructor
  · rintro ⟨block, hblock, hij⟩
    rcases (h.mem_flowsAt hblock).1 hij with
      ⟨source, hsource, hid, hi, hj⟩ | hchain | ⟨target, htarget, hid, hi, hj⟩
    · exact passes_of_target hsource hblock hid hi hj
    · obtain ⟨before, after, hsplit⟩ := FlowGraph.mem_neighbours.1 hchain
      exact .next hblock hsplit
    · exact passes_of_target hblock htarget hid hi hj
  · -- A jump is collected on either side; the side of its source is enough.
    intro hpasses
    cases hpasses with
    | @next block before after _ _ hblock hsplit =>
      refine ⟨block, hblock, (h.mem_flowsAt hblock).2 (.inr (.inl ?_))⟩
      exact FlowGraph.mem_neighbours.2 ⟨before, after, hsplit⟩
    | @jump source target last _ _ hsource hi hlast hterminator htarget hid hj =>
      have htargets := mem_targetsOf.2 ⟨i, last, hi, hlast, hterminator, hid⟩
      refine ⟨source, hsource, (h.mem_flowsAt hsource).2 (.inr (.inr ?_))⟩
      exact ⟨target, htarget, htargets, hi, hj⟩

/-- The first node is that of the instruction where control enters. -/
theorem entryNode?_eq (h : f.Complete) : FlowGraph.entryNode? f .forward = some 1 := by
  obtain ⟨block, rest, hvalues⟩ := List.exists_cons_of_ne_nil h.nonempty
  have hblock : block ∈ f.blocks.values := by
    rw [hvalues]
    exact List.mem_cons_self
  obtain ⟨first, hfirst⟩ := h.exists_first? hblock
  have hhead : block.instructions.head? = some first := hfirst
  have hnode : (FlowGraph.build f .forward).instAt? 1 = some first := by
    show (FlowGraph.numbering f)[0]? = some first
    rw [← Array.getElem?_toList, h.numbering_eq, hvalues, List.flatMap_cons,
      ← List.head?_eq_getElem?, List.head?_append, hhead, Option.some_or]
  have hentry : FlowGraph.entryInst? f .forward = some first := by
    show f.blocks.values.head?.bind Block.first? = some first
    rw [hvalues, List.head?_cons, Option.bind_some, hfirst]
  unfold FlowGraph.entryNode?
  rw [hentry, Option.bind_some]
  exact (h.indexOf?_eq_some_iff .forward).2 hnode

end Complete

end Function

namespace FlowGraph

variable {f : Function} {a b : Nat}

/-- The ends of the edges between instructions are the indices of transfers of control. -/
theorem mem_flowEnds_forward : (a, b) ∈ flowEnds f .forward ↔
    ∃ i j, (i, j) ∈ flows f ∧ (build f .forward).indexOf? i = some a ∧
      (build f .forward).indexOf? j = some b := by
  simp only [flowEnds, List.mem_eraseDups, List.mem_filterMap, Option.map_eq_some_iff]
  constructor
  · rintro ⟨⟨i, j⟩, hflow, ⟨k, l⟩, hnodes, horient⟩
    obtain ⟨_, hi, hnodes⟩ := Option.bind_eq_some_iff.1 hnodes
    obtain ⟨_, hj, hnodes⟩ := Option.bind_eq_some_iff.1 hnodes
    cases hnodes
    cases horient
    exact ⟨i, j, hflow, hi, hj⟩
  · rintro ⟨i, j, hflow, hi, hj⟩
    refine ⟨(i, j), hflow, (a, b), ?_, rfl⟩
    exact Option.bind_eq_some_iff.2 ⟨a, hi, Option.bind_eq_some_iff.2 ⟨b, hj, rfl⟩⟩

/-- A graph shows the control flow of a function: its nodes are the instructions, in block order,
    behind the virtual node; its edges are the transfers of control, and the one from the virtual
    node to the first instruction. -/
structure IsControlFlow (g : FlowGraph) (f : Function) : Prop where
  /-- Instructions are counted from 1 in block order. -/
  instAt?_succ : ∀ k, g.instAt? (k + 1) = (f.blocks.values.flatMap Block.instructions)[k]?
  /-- There is a node for each instruction, and the virtual one. -/
  nodeCount_eq : g.nodeCount = f.insts.size + 1
  /-- What has an index is an instruction of the function, and each of them has one. -/
  placed : ∀ {inst}, inst ∈ f.insts ↔ ∃ n, g.instruction? f n = some inst
  /-- Indices and numbers determine each other. -/
  indexOf?_iff : ∀ {id n}, g.indexOf? id = some n ↔ g.instAt? n = some id
  /-- Edges are transfers of control. -/
  edge_iff : ∀ {a b}, (∃ e ∈ g.edges, e.source = a ∧ e.target = b) ↔
    (a = virtualEntry ∧ b = 1) ∨
      ∃ i j, g.instAt? a = some i ∧ g.instAt? b = some j ∧ f.Passes i j
  /-- No two edges share their ends. -/
  nodup_ends : g.ends.Nodup

/-- The forward graph of a function that a builder hands over shows its control flow. -/
theorem isControlFlow_build (h : f.Built) (hblocks : f.blocks.size < UInt32.size)
    (hinsts : f.insts.size ≤ UInt32.size) : (build f .forward).IsControlFlow f := by
  have hf := Function.complete_of_build h hblocks hinsts
  refine ⟨?_, ?_, ?_, hf.indexOf?_eq_some_iff .forward, ?_, nodup_ends_build f .forward⟩
  · intro k
    show (numbering f)[k]? = _
    rw [← Array.getElem?_toList, hf.numbering_eq]
  · exact congrArg (· + 1) hf.size_numbering
  · intro inst
    constructor
    · exact hf.exists_node .forward
    · rintro ⟨n, hn⟩
      exact mem_insts_of_instruction? hn
  · intro a b
    rw [← mem_ends (p := (a, b)), ends_build, List.mem_append, mem_flowEnds_forward, entryEnds,
      hf.entryNode?_eq, or_comm]
    refine or_congr ?_ ?_
    · simp
    · simp only [hf.mem_flows, hf.indexOf?_eq_some_iff]
      constructor
      · rintro ⟨i, j, hpass, hi, hj⟩
        exact ⟨i, j, hi, hj, hpass⟩
      · rintro ⟨i, j, hi, hj, hpass⟩
        exact ⟨i, j, hpass, hi, hj⟩

/-- Builds a loop whose only block has merges and a branch to itself. The block is named twice by
    the branch in front of it, and the block behind it is filled before both. -/
def whirlSteps : List Builder.Step :=
  [.block "entry", .createBlock "spin", .createBlock "done", .switchTo (.ofNat 2), .ret none,
    .switchTo (.ofNat 0), .alloca, .branch (.arg 0) (.ofNat 1) (.ofNat 1), .switchTo (.ofNat 1),
    .appendMerge [(.inst (.ofSlot 1), .ofNat 0), (.inst (.ofSlot 4), .ofNat 1)],
    .appendMerge [(.arg 0, .ofNat 0), (.inst (.ofSlot 3), .ofNat 1)],
    .branch (.inst (.ofSlot 4)) (.ofNat 1) (.ofNat 2)]

/-- The function of `whirlSteps`. -/
def whirl : Function := ((Builder.fresh "whirl").run whirlSteps).function.linked

/-- In `whirl` control goes once around the loop through the edge from node 5 to node 3. -/
theorem isControlFlow_whirl :
    whirl.Built ∧ whirl.blocks.size < UInt32.size ∧ whirl.insts.size ≤ UInt32.size ∧
      (build whirl .forward).IsControlFlow whirl ∧
      (build whirl .forward).ends = [(1, 2), (2, 3), (5, 3), (3, 4), (4, 5), (5, 6), (0, 1)] ∧
      whirl.Passes (.ofSlot 5) (.ofSlot 3) := by
  have hbuilt : whirl.Built :=
    ⟨"whirl", whirlSteps, Builder.build_eq_ok_iff.2 ⟨by decide +kernel, rfl⟩⟩
  have hblocks : whirl.blocks.size < UInt32.size := by decide +kernel
  have hinsts : whirl.insts.size ≤ UInt32.size := by decide +kernel
  have hflow := isControlFlow_build hbuilt hblocks hinsts
  have hends : (build whirl .forward).ends =
      [(1, 2), (2, 3), (5, 3), (3, 4), (4, 5), (5, 6), (0, 1)] := by decide +kernel
  refine ⟨hbuilt, hblocks, hinsts, hflow, hends, ?_⟩
  have hedge : (5, 3) ∈ (build whirl .forward).ends := by
    rw [hends]
    decide
  rcases hflow.edge_iff.1 (mem_ends.1 hedge) with ⟨hvirtual, -⟩ | ⟨i, j, hi, hj, hpass⟩
  · cases hvirtual
  · have hfive : (build whirl .forward).instAt? 5 = some (.ofSlot 5) := by decide +kernel
    have hthree : (build whirl .forward).instAt? 3 = some (.ofSlot 3) := by decide +kernel
    rw [hfive] at hi
    rw [hthree] at hj
    cases hi
    cases hj
    exact hpass

end FlowGraph

end FlowFacts
