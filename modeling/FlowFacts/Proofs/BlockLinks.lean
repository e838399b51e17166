import FlowFacts.Proofs.ControlFlow

/-!
# Links between blocks

`Function.linked` derives the predecessors and successors of all blocks from the terminators. The
transfers of control are collected in block order first; then all links are dropped and the
transfers are recorded one after the other, each at both of its ends unless it is there already.
What comes of this does not depend on the links that the function had: the successors of a block are
the targets of its terminator, the predecessors are the blocks that lead to it in block order, and
no list has a block twice.

Main results:

* `Function.linked_eq_foldl`: linking is recording transfers one by one in a function without links.
* `Function.linked_eq_of_unlinked_eq`: the old links do not matter.
* `filter_fst_pairs`, `pick_snd_pairs`: what a table of lists has in one row, and which rows have an
  element.
* `Function.linked_relinks`: what linking does to a function whose blocks carry their own numbers.
-/

namespace FlowFacts

/-! ## Recording transfers -/

/-- Adds an element at the end of a list, unless it is there. -/
def pushNew {α : Type} [DecidableEq α] (xs : List α) (x : α) : List α :=
  if x ∈ xs then xs else xs ++ [x]

/-- What `q` makes of the elements with `p`, without repetitions. -/
def pick {α β : Type} [DecidableEq β] (p : α → Bool) (q : α → β) (xs : List α) : List β :=
  ((xs.filter p).map q).eraseDups

theorem pick_concat {α β : Type} [DecidableEq β] (p : α → Bool) (q : α → β) (xs : List α) (x : α) :
    pick p q (xs ++ [x]) = if p x then pushNew (pick p q xs) (q x) else pick p q xs := by
  unfold pick
  rw [List.filter_append, List.map_append]
  split_ifs with hx
  · rw [List.filter_cons_of_pos hx, List.filter_nil, List.map_singleton,
      FlowGraph.eraseDups_concat, pushNew]
    simp only [List.mem_eraseDups]
  · rw [List.filter_cons_of_neg hx, List.filter_nil, List.map_nil, List.append_nil]

theorem OrderedMap.mapWithKey_mapWithKey {κ α β γ : Type} (m : OrderedMap κ α) (p : κ → α → β)
    (q : κ → β → γ) :
    (m.mapWithKey p).mapWithKey q = m.mapWithKey fun k a => q k (p k a) := by
  refine OrderedMap.ext ?_
  simp only [mapWithKey, List.map_map]
  rfl

namespace Function

/-- The function without links between its blocks. -/
def unlinked (f : Function) : Function :=
  { f with
    blocks := f.blocks.mapWithKey fun _ block =>
      { block with predecessors := [], successors := [] } }

/-- Records a transfer of control at both of its ends, as far as the blocks exist. -/
def link (f : Function) (t : BlockId × BlockId) : Function :=
  { f with
    blocks := (f.blocks.modify t.1 fun block =>
      { block with successors := pushNew block.successors t.2 }).modify t.2 fun block =>
      { block with predecessors := pushNew block.predecessors t.1 } }

variable {f g : Function} {id : BlockId} {block : Block}

/-- After some transfers are recorded each block has the ends of those that concern it, without
    repetitions. -/
theorem foldl_link (f : Function) (ts : List (BlockId × BlockId)) :
    ts.foldl link f.unlinked =
      { f with
        blocks := f.blocks.mapWithKey fun id block =>
          { block with
            predecessors := pick (fun t => t.2 = id) Prod.fst ts
            successors := pick (fun t => t.1 = id) Prod.snd ts } } := by
  induction ts using List.reverseRecOn with
  | nil => rfl
  | append_singleton ts t ih =>
    rw [List.foldl_concat, ih, link, OrderedMap.modify, OrderedMap.modify,
      OrderedMap.mapWithKey_mapWithKey, OrderedMap.mapWithKey_mapWithKey]
    congr 2
    funext id block
    rw [pick_concat, pick_concat]
    simp only [decide_eq_true_eq, eq_comm (a := id)]
    split_ifs <;> rfl

theorem linked_eq_foldl (f : Function) : f.linked = f.transfers.foldl link f.unlinked :=
  (foldl_link f f.transfers).symm

theorem transfers_unlinked (f : Function) : f.unlinked.transfers = f.transfers :=
  transfers_relinked f _ _

theorem unlinked_linked (f : Function) : f.linked.unlinked = f.unlinked := by
  rw [unlinked, linked, OrderedMap.mapWithKey_mapWithKey]
  rfl

theorem linked_eq_of_unlinked_eq (h : f.unlinked = g.unlinked) : f.linked = g.linked := by
  rw [linked_eq_foldl, linked_eq_foldl, ← transfers_unlinked, h, transfers_unlinked]

theorem linked_linked (f : Function) : f.linked.linked = f.linked :=
  linked_eq_of_unlinked_eq f.unlinked_linked

end Function

/-! ## Tables of lists -/

section Tables

variable {α β : Type} {rows : List (α × List β)}

/-- The elements of all rows, each with the key of its row. -/
def pairs (rows : List (α × List β)) : List (α × β) := rows.flatMap fun r => r.2.map (Prod.mk r.1)

theorem pairs_cons (r : α × List β) (rows : List (α × List β)) :
    pairs (r :: rows) = r.2.map (Prod.mk r.1) ++ pairs rows := List.flatMap_cons

theorem mem_keys_of_mem_pairs {p : α × β} (h : p ∈ pairs rows) : p.1 ∈ rows.map Prod.fst := by
  obtain ⟨r, hr, hp⟩ := List.mem_flatMap.1 h
  obtain ⟨x, -, rfl⟩ := List.mem_map.1 hp
  exact List.mem_map_of_mem hr

variable [DecidableEq α]

/-- The pairs of one key make up its row. -/
theorem filter_fst_pairs (hnodup : (rows.map Prod.fst).Nodup) {k : α} {xs : List β}
    (h : (k, xs) ∈ rows) : ((pairs rows).filter fun p => p.1 = k).map Prod.snd = xs := by
  induction rows with
  | nil => cases h
  | cons r rows ih =>
    rw [List.map_cons, List.nodup_cons] at hnodup
    rw [pairs_cons, List.filter_append, List.filter_map, List.map_append, List.map_map]
    rcases List.mem_cons.1 h with rfl | h
    · have hrest : (pairs rows).filter (fun p => p.1 = k) = [] := by
        rw [List.filter_eq_nil_iff]
        intro p hp hk
        exact hnodup.1 (of_decide_eq_true hk ▸ mem_keys_of_mem_pairs hp)
      simp [hrest, Function.comp_def]
    · have hne : r.1 ≠ k := by
        rintro rfl
        exact hnodup.1 (List.mem_map.2 ⟨_, h, rfl⟩)
      rw [ih hnodup.2 h]
      simp [hne, Function.comp_def]

theorem eraseDups_replicate_append {a : α} {xs : List α} (h : a ∉ xs) (n : Nat) :
    (List.replicate (n + 1) a ++ xs).eraseDups = a :: xs.eraseDups := by
  rw [List.replicate_succ, List.cons_append, List.eraseDups_cons, List.filter_append]
  have hxs : xs.filter (fun b => !b == a) = xs := by
    rw [List.filter_eq_self]
    intro b hb
    have hba : b ≠ a := fun heq => h (heq ▸ hb)
    simp [hba]
  simp [hxs]

/-- The keys of the pairs of one element are those of the rows that have it. -/
theorem pick_snd_pairs [DecidableEq β] (hnodup : (rows.map Prod.fst).Nodup) (x : β) :
    pick (fun p => p.2 = x) Prod.fst (pairs rows) =
      (rows.filter fun r => x ∈ r.2).map Prod.fst := by
  induction rows with
  | nil => rfl
  | cons r rows ih =>
    rw [List.map_cons, List.nodup_cons] at hnodup
    have hrow : (r.2.map (Prod.mk r.1)).filter (fun p => p.2 = x) =
        List.replicate (r.2.count x) (r.1, x) := by
      rw [List.filter_map, Function.comp_def, List.filter_eq, List.map_replicate]
    have hrest : r.1 ∉ ((pairs rows).filter fun p => p.2 = x).map Prod.fst := by
      intro hmem
      obtain ⟨p, hp, hkey⟩ := List.mem_map.1 hmem
      exact hnodup.1 (hkey ▸ mem_keys_of_mem_pairs (List.mem_filter.1 hp).1)
    rw [pick, pairs_cons, List.filter_append, List.map_append, hrow, List.map_replicate]
    by_cases hx : x ∈ r.2
    · obtain ⟨n, hn⟩ := Nat.exists_eq_succ_of_ne_zero (List.count_pos_iff.2 hx).ne'
      rw [hn, eraseDups_replicate_append hrest, List.filter_cons_of_pos (by simpa using hx),
        List.map_cons, ← ih hnodup.2]
      rfl
    · rw [List.count_eq_zero.2 hx, List.filter_cons_of_neg (by simpa using hx), ← ih hnodup.2]
      rfl

end Tables

/-! ## The links of a function -/

namespace Function

variable {f : Function} {id : BlockId} {block : Block}

/-- `g` is `f` with the links that its terminators give: the successors of a block are the targets
    of its last instruction, if that is a terminator, and its predecessors are the blocks that have
    it among their successors. No list has a block twice. -/
structure Relinks (f g : Function) : Prop where
  kept : g.unlinked = f.unlinked
  successors : ∀ {id : BlockId} {block : Block} {inst : Instruction}, g.block? id = some block →
    block.instructions.getLast?.bind f.inst? = some inst → inst.isTerminator = true →
    block.successors = inst.targets.eraseDups
  no_successors : ∀ {id : BlockId} {block : Block}, g.block? id = some block →
    (∀ inst, block.instructions.getLast?.bind f.inst? = some inst → inst.isTerminator = false) →
    block.successors = []
  predecessors : ∀ {id : BlockId} {block : Block}, g.block? id = some block →
    block.predecessors = (g.blocks.entries.filter fun e => id ∈ e.2.successors).map Prod.fst
  nodup : ∀ {id : BlockId} {block : Block}, g.block? id = some block →
    block.predecessors.Nodup ∧ block.successors.Nodup
  mutual_links : ∀ {id other : BlockId} {block : Block}, g.block? id = some block →
    (other ∈ block.predecessors ↔ ∃ source, g.block? other = some source ∧ id ∈ source.successors)

/-- The targets of each block. -/
def exits (f : Function) : List (BlockId × List BlockId) :=
  f.blocks.entries.map fun e => (e.1, f.targetsOf e.2)

theorem transfers_eq_pairs (hids : ∀ id block, f.block? id = some block → block.id = id) :
    f.transfers = pairs f.exits := by
  rw [transfers, pairs, exits, OrderedMap.values, List.flatMap_map, List.flatMap_map]
  refine List.flatMap_congr fun e he => ?_
  rw [hids e.1 e.2 (OrderedMap.get?_eq_some_iff.2 he)]

theorem targetsOf_eq {inst : Instruction} (hinst : block.last?.bind f.inst? = some inst)
    (hterminator : inst.isTerminator = true) : f.targetsOf block = inst.targets := by
  simp only [targetsOf, hinst, hterminator, if_true]

theorem targetsOf_eq_nil
    (h : ∀ inst, block.last?.bind f.inst? = some inst → inst.isTerminator = false) :
    f.targetsOf block = [] := by
  unfold targetsOf
  cases hlast : block.last?.bind f.inst? with
  | none => rfl
  | some inst => simp [h inst hlast]

section

variable (hids : ∀ id block, f.block? id = some block → block.id = id)

include hids

/-- What linking makes of each block. -/
theorem blocks_linked : f.linked.blocks = f.blocks.mapWithKey fun id block =>
    { block with
      predecessors := (f.exits.filter fun r => id ∈ r.2).map Prod.fst
      successors := (f.targetsOf block).eraseDups } := by
  have hnodup : (f.exits.map Prod.fst).Nodup := by
    rw [exits, List.map_map]
    exact f.blocks.nodupKeys
  refine OrderedMap.ext (List.map_congr_left fun e he => ?_)
  have hrow : (e.1, f.targetsOf e.2) ∈ f.exits := List.mem_map_of_mem he
  dsimp only
  rw [transfers_eq_pairs hids, ← pick_snd_pairs hnodup, ← filter_fst_pairs hnodup hrow]
  rfl

theorem exists_of_block?_linked (h : f.linked.block? id = some block) :
    ∃ old, f.block? id = some old ∧ block =
      { old with
        predecessors := (f.exits.filter fun r => id ∈ r.2).map Prod.fst
        successors := (f.targetsOf old).eraseDups } := by
  rw [Function.block?, blocks_linked hids, OrderedMap.get?_mapWithKey] at h
  obtain ⟨old, hold, rfl⟩ := Option.map_eq_some_iff.1 h
  exact ⟨old, hold, rfl⟩

/-- The blocks whose successors include a block, once the links are derived. -/
theorem leading_linked (id : BlockId) :
    (f.linked.blocks.entries.filter fun e => id ∈ e.2.successors).map Prod.fst =
      (f.exits.filter fun r => id ∈ r.2).map Prod.fst := by
  rw [blocks_linked hids, exits, OrderedMap.mapWithKey, List.filter_map, List.filter_map,
    List.map_map, List.map_map]
  simp only [Function.comp_def, List.mem_eraseDups]

theorem relinks_linked : f.Relinks f.linked where
  kept := f.unlinked_linked
  successors hblock hinst hterminator := by
    obtain ⟨old, -, rfl⟩ := exists_of_block?_linked hids hblock
    exact congrArg List.eraseDups (targetsOf_eq hinst hterminator)
  no_successors hblock hnone := by
    obtain ⟨old, -, rfl⟩ := exists_of_block?_linked hids hblock
    exact congrArg List.eraseDups (targetsOf_eq_nil hnone)
  predecessors {id block} hblock := by
    obtain ⟨old, -, rfl⟩ := exists_of_block?_linked hids hblock
    exact (leading_linked hids id).symm
  nodup {id block} hblock := by
    obtain ⟨old, -, rfl⟩ := exists_of_block?_linked hids hblock
    refine ⟨?_, FlowGraph.nodup_eraseDups _⟩
    rw [← leading_linked hids id]
    exact f.linked.blocks.nodupKeys.sublist (List.filter_sublist.map Prod.fst)
  mutual_links {id other block} hblock := by
    obtain ⟨old, -, rfl⟩ := exists_of_block?_linked hids hblock
    rw [← leading_linked hids id, List.mem_map]
    constructor
    · rintro ⟨e, he, rfl⟩
      obtain ⟨he, hid⟩ := List.mem_filter.1 he
      exact ⟨e.2, OrderedMap.get?_eq_some_iff.2 he, of_decide_eq_true hid⟩
    · rintro ⟨source, hsource, hid⟩
      exact ⟨(other, source), List.mem_filter.2
        ⟨OrderedMap.get?_eq_some_iff.1 hsource, decide_eq_true hid⟩, rfl⟩

end

/-- Linking is recording the transfers of control one by one in the function without links. If
    blocks are stored under their own numbers, then it derives the links from the terminators,
    whatever links there were, and changes nothing else; and it changes nothing when it is done
    again. -/
theorem linked_relinks (f : Function)
    (hids : ∀ id block, f.block? id = some block → block.id = id) :
    f.linked = f.transfers.foldl link f.unlinked ∧ f.Relinks f.linked ∧
      f.linked.linked = f.linked :=
  ⟨f.linked_eq_foldl, relinks_linked hids, f.linked_linked⟩

/-- A block under its own number. -/
def numbered (number : Nat) (insts before after : List Nat) : BlockId × Block :=
  (.ofNat number, {
    id := .ofNat number
    label := "b" ++ toString number
    instructions := insts.map InstId.ofSlot
    predecessors := before.map BlockId.ofNat
    successors := after.map BlockId.ofNat })

/-- Blocks out of order with links that are out of date. The first one leads twice to each of two
    blocks and to one that does not exist, the second one to itself; the last instruction of the
    third one does not exist, and that of the fourth one has targets without being a terminator. -/
def knot : Function where
  name := "knot"
  params := []
  blocks := .ofList [numbered 2 [0] [7] [7, 0], numbered 0 [1] [] [1, 1], numbered 1 [9] [1] [],
    numbered 3 [0, 2] [] [3]]
  insts := #[
    ⟨.ofSlot 0, none, .switch, [.const 0], [], [1, 0, 1, 9, 0].map BlockId.ofNat, .ofNat 2⟩,
    ⟨.ofSlot 1, none, .br, [.const 0], [], [0, 2].map BlockId.ofNat, .ofNat 0⟩,
    ⟨.ofSlot 2, none, .alloca, [], [], [.ofNat 0], .ofNat 3⟩]

theorem linked_relinks_knot :
    (∀ e ∈ knot.blocks.entries, e.2.id = e.1) ∧
      (knot.linked.blocks.entries.map fun e =>
        (e.1.toNat, e.2.predecessors.map BlockId.toNat, e.2.successors.map BlockId.toNat)) =
        [(2, [0], [1, 0, 9]), (0, [2, 0], [0, 2]), (1, [2], []), (3, [], [])] ∧
      knot.linked = knot.transfers.foldl link knot.unlinked ∧ knot.Relinks knot.linked ∧
      knot.linked.linked = knot.linked := by
  have hentries : ∀ e ∈ knot.blocks.entries, e.2.id = e.1 := by decide
  refine ⟨hentries, by decide, linked_relinks knot fun id block hblock => ?_⟩
  exact hentries (id, block) (OrderedMap.get?_eq_some_iff.1 hblock)

end Function

end FlowFacts
