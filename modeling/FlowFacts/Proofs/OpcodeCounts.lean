import FlowFacts.Collection.SortedMap
import FlowFacts.Program.Tally
import FlowFacts.Proofs.Assembly
import Mathlib.Algebra.GroupWithZero.Nat

/-!
# Opcode counts agree

Opcodes are counted in three ways: over all instructions of a function, by name; over the
instructions of a block, in listing order; and by a tally that is told what each block holds when
it is entered. A listing is what a counting map holds after going up by one at each occurrence. Such
a map is described by what one addition does to it, and the three counts agree because all that was
added at a key is the same, in whatever order it was added.

Main results:

* `Counts.count_addAll`, `Counts.total_addAll`: what a counting map holds after some additions.
* `Opcode.listing_eq_entries`: a listing of opcodes is the list of entries of a counting map.
* `OpcodeTally.count_update`: what a tally holds that does not overflow.
* `counts_agree`: the counts of every function agree, and those of a module are their sums.
-/

namespace FlowFacts

/-! ## Counting maps -/

/-- Counts by key, in the order of the keys. -/
abbrev Counts (κ : Type) [StrictOrder κ] : Type := SortedMap κ Nat

section Listings

variable {κ : Type} [DecidableEq κ] {k : κ}

/-- The count that a listing gives at a key; what is not listed has none. -/
def countAt (es : List (κ × Nat)) (k : κ) : Nat := (SortedMap.lookupEntry k es).getD 0

/-- What the entries of a list add up to at a key. -/
def added (k : κ) (es : List (κ × Nat)) : Nat := (es.map fun e => if e.1 = k then e.2 else 0).sum

theorem added_cons (e : κ × Nat) (es : List (κ × Nat)) :
    added k (e :: es) = (if e.1 = k then e.2 else 0) + added k es := by
  rw [added, List.map_cons, List.sum_cons, added]

theorem added_flatMap {α : Type} (xs : List α) (g : α → List (κ × Nat)) :
    added k (xs.flatMap g) = (xs.map fun x => added k (g x)).sum := by
  unfold added
  rw [List.map_flatMap, List.flatMap_def, List.sum_flatten, List.map_map]
  rfl

theorem added_ones (ks : List κ) : added k (ks.map fun k => (k, 1)) = ks.count k := by
  induction ks with
  | nil => rfl
  | cons x ks ih =>
    rw [List.map_cons, added_cons, ih, List.count_cons, Nat.add_comm]
    simp only [beq_iff_eq]

end Listings

namespace Counts

variable {κ : Type} [StrictOrder κ]

/-- Adds to the count of a key, which starts from zero. -/
def add (c : Counts κ) (e : κ × Nat) : Counts κ := c.mergeWith (· + ·) (.singleton e.1 e.2)

/-- Adds to the counts of several keys. -/
def addAll (c : Counts κ) (es : List (κ × Nat)) : Counts κ := es.foldl add c

/-- Goes up by one at each of some keys. -/
def ofKeys (ks : List κ) : Counts κ := addAll .empty (ks.map fun k => (k, 1))

/-! ### Totals -/

/-- All counts together. -/
def total (c : Counts κ) : Nat := (c.entries.map Prod.snd).sum

/-- Merging keeps the sum, be the lists in order or not. -/
theorem sum_merge (xs ys : List (κ × Nat)) :
    ((SortedMap.merge (· + ·) xs ys).map Prod.snd).sum =
      (xs.map Prod.snd).sum + (ys.map Prod.snd).sum := by
  induction xs generalizing ys with
  | nil => exact (Nat.zero_add _).symm
  | cons x xs ihx =>
    induction ys with
    | nil => simp [ihx]
    | cons y ys ihy =>
      rw [SortedMap.merge_cons_cons]
      split
      · simp only [List.map_cons, List.sum_cons, ihx]
        omega
      · split
        · simp only [List.map_cons, List.sum_cons] at ihy ⊢
          omega
        · simp only [List.map_cons, List.sum_cons, ihx]
          omega

/-- All counts together are what was added. -/
theorem total_addAll (c : Counts κ) (es : List (κ × Nat)) :
    (c.addAll es).total = c.total + (es.map Prod.snd).sum := by
  induction es generalizing c with
  | nil => rfl
  | cons e es ih =>
    have hstep : (c.add e).total = c.total + e.2 := sum_merge c.entries [(e.1, e.2)]
    rw [addAll, List.foldl_cons, ← addAll, ih, hstep, List.map_cons, List.sum_cons, Nat.add_assoc]

theorem total_ofKeys (ks : List κ) : (ofKeys ks).total = ks.length := by
  have hones : ((ks.map fun k => (k, 1)).map Prod.snd).sum = ks.length := by
    induction ks with
    | nil => rfl
    | cons k ks ih =>
      rw [List.map_cons, List.map_cons, List.sum_cons, ih, List.length_cons, Nat.add_comm]
  rw [ofKeys, total_addAll, hones]
  exact Nat.zero_add _

/-! ### Single counts -/

variable [DecidableEq κ] {c : Counts κ} {k : κ}

/-- The count of a key. -/
def count (c : Counts κ) (k : κ) : Nat := countAt c.entries k

theorem count_def (c : Counts κ) (k : κ) : c.count k = (c.get? k).getD 0 := rfl

theorem get?_add (c : Counts κ) (e : κ × Nat) (k : κ) :
    (c.add e).get? k = if e.1 = k then some (c.count k + e.2) else c.get? k := by
  rw [add, SortedMap.get?_mergeWith, SortedMap.get?_singleton, count_def]
  split
  · cases c.get? k with
    | none => exact congrArg some (Nat.zero_add _).symm
    | some n => rfl
  · rw [SortedMap.combine_none_right]

theorem count_add (c : Counts κ) (e : κ × Nat) (k : κ) :
    (c.add e).count k = c.count k + if e.1 = k then e.2 else 0 := by
  rw [count_def, get?_add]
  split <;> rfl

/-- The count of a key is what was added to it. -/
theorem count_addAll (c : Counts κ) (es : List (κ × Nat)) (k : κ) :
    (c.addAll es).count k = c.count k + added k es := by
  induction es generalizing c with
  | nil => rfl
  | cons e es ih =>
    rw [addAll, List.foldl_cons, ← addAll, ih, count_add, added_cons, Nat.add_assoc]

theorem count_addAll_empty (es : List (κ × Nat)) (k : κ) :
    (addAll .empty es).count k = added k es :=
  (count_addAll .empty es k).trans (Nat.zero_add _)

theorem count_ofKeys (ks : List κ) (k : κ) : (ofKeys ks).count k = ks.count k := by
  rw [ofKeys, count_addAll_empty, added_ones]

/-- The keys are those to which something was added. -/
theorem isSome_get?_addAll (c : Counts κ) (es : List (κ × Nat)) :
    ((c.addAll es).get? k).isSome = true ↔
      (c.get? k).isSome = true ∨ k ∈ es.map Prod.fst := by
  induction es generalizing c with
  | nil => simp [addAll]
  | cons e es ih =>
    rw [addAll, List.foldl_cons, ← addAll, ih, get?_add, List.map_cons, List.mem_cons]
    by_cases h : e.1 = k
    · simp [h]
    · simp [h, Ne.symm h]

/-- Each key has one entry, so that is all that the entries add to it. -/
theorem added_entries (c : Counts κ) (k : κ) : added k c.entries = c.count k := by
  obtain ⟨es, hsorted⟩ := c
  show added k es = countAt es k
  induction es with
  | nil => rfl
  | cons e es ih =>
    rw [List.pairwise_cons] at hsorted
    rw [added_cons, ih hsorted.2, countAt, countAt, SortedMap.lookupEntry_cons]
    split
    · next hk =>
      -- All later keys lie above this one.
      rw [SortedMap.lookupEntry_eq_none fun e' he' => hk ▸ hsorted.1 e' he']
      rfl
    · exact Nat.zero_add _

/-! ### Maps without empty counts -/

/-- No key is listed with the count zero. -/
def Positive (c : Counts κ) : Prop := ∀ e ∈ c.entries, 0 < e.2

theorem Positive.get?_eq (h : c.Positive) (k : κ) :
    c.get? k = if c.count k = 0 then none else some (c.count k) := by
  rw [count_def]
  cases hk : c.get? k with
  | none => rfl
  | some n => exact (if_neg (Nat.ne_of_gt (h (k, n) (SortedMap.get?_eq_some_iff.1 hk)))).symm

theorem Positive.add (h : c.Positive) {e : κ × Nat} (he : 0 < e.2) : (c.add e).Positive := by
  intro e' he'
  have hget : (c.add e).get? e'.1 = some e'.2 := SortedMap.get?_eq_some_iff.2 he'
  rw [get?_add] at hget
  split at hget
  · rw [← Option.some.inj hget]
    exact Nat.add_pos_right _ he
  · exact h e' (SortedMap.get?_eq_some_iff.1 hget)

/-- Counting from nothing leaves no empty counts, if no addition is empty. -/
theorem positive_addAll {es : List (κ × Nat)} (hes : ∀ e ∈ es, 0 < e.2) :
    (addAll .empty es : Counts κ).Positive := by
  have hrun : ∀ c : Counts κ, c.Positive → (c.addAll es).Positive := by
    induction es with
    | nil => exact fun c h => h
    | cons e es ih =>
      rw [List.forall_mem_cons] at hes
      exact fun c h => ih hes.2 _ (h.add hes.1)
  refine hrun _ fun e he => ?_
  cases he

theorem positive_ofKeys (ks : List κ) : (ofKeys ks).Positive := by
  refine positive_addAll fun e he => ?_
  obtain ⟨k, -, rfl⟩ := List.mem_map.1 he
  exact Nat.one_pos

end Counts

/-! ## Listings of opcodes -/

namespace Opcode

theorem mem_insertByName {op o : Opcode} {ops : List Opcode} :
    o ∈ insertByName op ops ↔ o = op ∨ o ∈ ops := by
  induction ops with
  | nil => simp [insertByName]
  | cons first ops ih =>
    rw [insertByName]
    split
    · exact List.mem_cons
    · rw [List.mem_cons, ih, List.mem_cons]
      exact or_left_comm

theorem sorted_insertByName {op : Opcode} {ops : List Opcode} (hop : op ∉ ops)
    (hsorted : ops.Pairwise fun a b => a.name < b.name) :
    (insertByName op ops).Pairwise fun a b => a.name < b.name := by
  induction ops with
  | nil => exact List.pairwise_singleton _ _
  | cons first ops ih =>
    rw [List.mem_cons, not_or] at hop
    rw [List.pairwise_cons] at hsorted
    rw [insertByName]
    split
    · next hle =>
      have hlt : op.name < first.name :=
        String.not_le.1 fun hge => hop.1 (name_injective (String.le_antisymm hle hge))
      refine List.pairwise_cons.2 ⟨fun o ho => ?_, List.pairwise_cons.2 hsorted⟩
      rcases List.mem_cons.1 ho with rfl | ho
      · exact hlt
      · exact String.lt_trans hlt (hsorted.1 o ho)
    · next hnle =>
      refine List.pairwise_cons.2 ⟨fun o ho => ?_, ih hop.2 hsorted.2⟩
      rcases mem_insertByName.1 ho with rfl | ho
      · exact String.not_le.1 hnle
      · exact hsorted.1 o ho

theorem mem_foldr_insertByName (ops : List Opcode) {op : Opcode} :
    op ∈ ops.foldr insertByName [] ↔ op ∈ ops := by
  induction ops with
  | nil => exact Iff.rfl
  | cons first ops ih => rw [List.foldr_cons, mem_insertByName, ih, List.mem_cons]

theorem sorted_foldr_insertByName {ops : List Opcode} (hnodup : ops.Nodup) :
    (ops.foldr insertByName []).Pairwise fun a b => a.name < b.name := by
  induction ops with
  | nil => exact List.Pairwise.nil
  | cons first ops ih =>
    rw [List.nodup_cons, ← mem_foldr_insertByName] at hnodup
    exact sorted_insertByName hnodup.1 (ih hnodup.2)

theorem mem_byName (op : Opcode) : op ∈ byName := (mem_foldr_insertByName all).2 (mem_all op)

/-- Each opcode is listed once, in the order of names. -/
theorem sorted_byName : byName.Pairwise fun a b => a.name < b.name :=
  sorted_foldr_insertByName nodup_all

/-- Opcodes in listing order. -/
instance : StrictOrder Opcode where
  lt a b := a.position < b.position
  decLt a b := inferInstanceAs (Decidable (a.position < b.position))
  lt_irrefl a := Nat.lt_irrefl a.position
  lt_trans := Nat.lt_trans
  eq_of_not_lt hab hba :=
    (List.idxOf_inj (mem_all _)).1 (Nat.le_antisymm (Nat.le_of_not_lt hba) (Nat.le_of_not_lt hab))

theorem sorted_all : all.Pairwise (· < ·) := by decide

theorem mem_listed {ops : List Opcode} {count : Opcode → Nat} {e : Opcode × Nat} :
    e ∈ listed ops count ↔ e.1 ∈ ops ∧ count e.1 = e.2 ∧ 0 < e.2 := by
  rw [listed, List.mem_filterMap]
  constructor
  · rintro ⟨op, hop, he⟩
    obtain ⟨hpos, he⟩ := Option.ite_none_left_eq_some.1 he
    rw [← Option.some.inj he]
    exact ⟨hop, rfl, Nat.pos_of_ne_zero hpos⟩
  · rintro ⟨hop, hcount, hpos⟩
    refine ⟨e.1, hop, ?_⟩
    rw [hcount, if_neg (Nat.ne_of_gt hpos)]

theorem sublist_listed (ops : List Opcode) (count : Opcode → Nat) :
    ((listed ops count).map Prod.fst).Sublist ops := by
  induction ops with
  | nil => exact List.Sublist.refl _
  | cons op ops ih =>
    rw [listed, List.filterMap_cons, ← listed]
    split
    · next h => exact ih.cons op
    · next e h =>
      obtain ⟨-, he⟩ := Option.ite_none_left_eq_some.1 h
      rw [← Option.some.inj he]
      exact ih.cons_cons op

/-- Leaving out the empty counts does not change their sum. -/
theorem sum_listed (ops : List Opcode) (count : Opcode → Nat) :
    ((listed ops count).map Prod.snd).sum = (ops.map count).sum := by
  induction ops with
  | nil => rfl
  | cons op ops ih =>
    rw [listed, List.filterMap_cons, ← listed, List.map_cons, List.sum_cons, ← ih]
    by_cases h : count op = 0
    · simp [h]
    · simp [h]

section Keys

variable {κ : Type} [DecidableEq κ] {key : Opcode → κ} {ops : List Opcode}

theorem count_keys (hkey : Function.Injective key) (insts : List Instruction) (op : Opcode) :
    (insts.map fun i => key i.opcode).count (key op) = countIn insts op := by
  rw [List.count, List.countP_map, countIn]
  refine List.countP_congr fun i _ => ?_
  simp [hkey.eq_iff]

variable [StrictOrder κ]

/-- A listing of opcodes in the order of their keys is the list of entries of a counting map with the
    same counts. -/
theorem listing_eq_entries (hall : ∀ op, op ∈ ops)
    (hsorted : ops.Pairwise fun a b => key a < key b) {count : Opcode → Nat} {c : Counts κ}
    (hpositive : c.Positive) (hkeys : ∀ k, (c.get? k).isSome = true → ∃ op, key op = k)
    (hcount : ∀ op, c.count (key op) = count op) :
    (listed ops count).map (fun e => (key e.1, e.2)) = c.entries := by
  have hlisting : ((listed ops count).map fun e => (key e.1, e.2)).Pairwise
      fun a b => a.1 < b.1 := by
    have hops := hsorted.sublist (sublist_listed ops count)
    rw [List.pairwise_map] at hops ⊢
    exact hops
  -- Both lists ascend, so they are equal if every key has the same count in both.
  refine SortedMap.entries_eq_of_lookup_eq hlisting c.sorted fun k => Option.ext fun n => ?_
  rw [SortedMap.lookupEntry_eq_some_iff hlisting, ← SortedMap.get?_def, hpositive.get?_eq,
    Option.ite_none_left_eq_some, List.mem_map]
  constructor
  · rintro ⟨e, he, hk⟩
    obtain ⟨-, hop, hpos⟩ := mem_listed.1 he
    cases hk
    rw [hcount, hop]
    exact ⟨Nat.ne_of_gt hpos, rfl⟩
  · rintro ⟨hne, hn⟩
    have hsome : (c.get? k).isSome = true := by
      rw [hpositive.get?_eq, if_neg hne]
      rfl
    obtain ⟨op, rfl⟩ := hkeys k hsome
    rw [hcount] at hne hn
    have hcount_eq := Option.some.inj hn
    exact ⟨(op, n), mem_listed.2 ⟨hall op, hcount_eq, by omega⟩, rfl⟩

/-- Counting the keys of instructions gives the listing of their opcodes. -/
theorem listing_eq_ofKeys (hall : ∀ op, op ∈ ops)
    (hsorted : ops.Pairwise fun a b => key a < key b) (hkey : Function.Injective key)
    (insts : List Instruction) :
    (listed ops (countIn insts)).map (fun e => (key e.1, e.2)) =
      (Counts.ofKeys (insts.map fun i => key i.opcode)).entries := by
  refine listing_eq_entries hall hsorted (Counts.positive_ofKeys _) ?_ fun op => ?_
  · intro k hk
    rw [Counts.ofKeys, Counts.isSome_get?_addAll, List.map_map, List.map_map] at hk
    obtain ⟨i, -, hi⟩ := List.mem_map.1 (hk.resolve_left Bool.false_ne_true)
    exact ⟨i.opcode, hi⟩
  · rw [Counts.count_ofKeys, count_keys hkey]

end Keys

/-- In listing order the opcodes are their own keys. -/
theorem listed_all_eq_entries (insts : List Instruction) :
    listed all (countIn insts) = (Counts.ofKeys (insts.map Instruction.opcode)).entries := by
  rw [← listing_eq_ofKeys mem_all sorted_all Function.injective_id]
  exact (List.map_id _).symm

/-- Each instruction has one opcode. -/
theorem sum_countIn (insts : List Instruction) : (all.map (countIn insts)).sum = insts.length := by
  rw [← sum_listed, listed_all_eq_entries, ← Counts.total, Counts.total_ofKeys, List.length_map]

/-- A listing under the names of its opcodes. -/
def named (es : List (Opcode × Nat)) : List (String × Nat) := es.map fun e => (e.1.name, e.2)

/-- The count that a listing gives under a name. -/
def countNamed (es : List (Opcode × Nat)) (name : String) : Nat := countAt (named es) name

theorem mem_fst_listed {ops : List Opcode} (hall : ∀ op, op ∈ ops) {count : Opcode → Nat}
    {op : Opcode} : op ∈ (listed ops count).map Prod.fst ↔ 0 < count op := by
  rw [List.mem_map]
  constructor
  · rintro ⟨e, he, rfl⟩
    obtain ⟨-, hcount, hpos⟩ := mem_listed.1 he
    exact hcount ▸ hpos
  · intro hpos
    exact ⟨(op, count op), mem_listed.2 ⟨hall op, rfl, hpos⟩, rfl⟩

end Opcode

/-- Names in the order of strings. -/
local instance : StrictOrder String where
  lt := (· < ·)
  decLt := String.decidableLT
  lt_irrefl := String.lt_irrefl
  lt_trans := String.lt_trans
  eq_of_not_lt hab hba := String.le_antisymm (String.not_lt.1 hba) (String.not_lt.1 hab)

namespace Function

variable (f : Function)

/-- The instructions of the block under a number; a missing block has none. -/
def instructionsAt (b : BlockId) : List Instruction := (f.block? b).elim [] f.instructionsOf

theorem instructions_eq_flatMap : f.instructions = f.blocks.keys.flatMap f.instructionsAt := by
  rw [instructions, OrderedMap.values, OrderedMap.keys, List.flatMap_map, List.flatMap_map]
  refine List.flatMap_congr fun e he => ?_
  have hblock : f.block? e.1 = some e.2 := OrderedMap.get?_eq_some_iff.2 he
  rw [instructionsAt, hblock]
  rfl

theorem histogram_eq_listed (b : BlockId) :
    f.histogram b = Opcode.listed Opcode.all (countIn (f.instructionsAt b)) := by
  rw [histogram, instructionsAt]
  cases f.block? b with
  | none => rfl
  | some block => rfl

/-- The names of all instructions are counted one by one. -/
theorem named_staticCounts :
    Opcode.named f.staticCounts =
      (Counts.ofKeys (f.instructions.map fun i => i.opcode.name)).entries :=
  Opcode.listing_eq_ofKeys Opcode.mem_byName Opcode.sorted_byName (fun _ _ => Opcode.name_injective)
    f.instructions

/-- The opcodes of a block are counted one by one. -/
theorem histogram_eq_entries (b : BlockId) :
    f.histogram b = (Counts.ofKeys ((f.instructionsAt b).map Instruction.opcode)).entries := by
  rw [histogram_eq_listed, Opcode.listed_all_eq_entries]

theorem countNamed_staticCounts (op : Opcode) :
    Opcode.countNamed f.staticCounts op.name = countIn f.instructions op := by
  rw [Opcode.countNamed, named_staticCounts]
  show (Counts.ofKeys _).count op.name = _
  rw [Counts.count_ofKeys, Opcode.count_keys fun _ _ => Opcode.name_injective]

theorem countAt_histogram (b : BlockId) (op : Opcode) :
    countAt (f.histogram b) op = countIn (f.instructionsAt b) op := by
  rw [histogram_eq_entries]
  show (Counts.ofKeys _).count op = _
  rw [Counts.count_ofKeys]
  exact Opcode.count_keys Function.injective_id _ op

theorem added_histogram (b : BlockId) (op : Opcode) :
    added op (f.histogram b) = countAt (f.histogram b) op := by
  rw [histogram_eq_entries, Counts.added_entries]
  rfl

theorem added_staticCounts (name : String) :
    added name (Opcode.named f.staticCounts) = Opcode.countNamed f.staticCounts name := by
  rw [Opcode.countNamed, named_staticCounts, Counts.added_entries]
  rfl

/-- The static count is the sum over the blocks. -/
theorem countNamed_staticCounts_eq_sum (op : Opcode) :
    Opcode.countNamed f.staticCounts op.name =
      (f.blocks.keys.map fun b => countAt (f.histogram b) op).sum := by
  rw [countNamed_staticCounts, countIn, instructions_eq_flatMap, List.countP_flatMap]
  refine congrArg List.sum (List.map_congr_left fun b _ => ?_)
  exact (f.countAt_histogram b op).symm

theorem sum_staticCounts : (f.staticCounts.map Prod.snd).sum = f.instructions.length := by
  have htotal := Counts.total_ofKeys (f.instructions.map fun i => i.opcode.name)
  rw [Counts.total, ← named_staticCounts, Opcode.named, List.map_map, List.length_map] at htotal
  exact htotal

theorem sum_histogram (b : BlockId) :
    ((f.histogram b).map Prod.snd).sum = (f.instructionsAt b).length := by
  rw [histogram_eq_entries, ← Counts.total, Counts.total_ofKeys, List.length_map]

end Function

/-! ## Tallies -/

namespace OpcodeTally

variable {t : OpcodeTally} {op : Opcode}

theorem count_add (t : OpcodeTally) (e : Opcode × Nat) (op : Opcode) :
    (t.add e).count op =
      if e.1 = op then (t.count op + e.2) % UInt64.size else t.count op := by
  rw [count, add, OrderedMap.get?_insert]
  split
  · next h => rw [h]; rfl
  · rfl

/-- A tally counts what it is told, as long as that has 64 bits. -/
theorem count_update {es : List (Opcode × Nat)} (h : t.count op + added op es < UInt64.size) :
    (t.update es).count op = t.count op + added op es := by
  induction es generalizing t with
  | nil => rfl
  | cons e es ih =>
    rw [added_cons] at h ⊢
    -- The count does not wrap around here, since even with what follows it has 64 bits.
    have hstep : (t.add e).count op = t.count op + if e.1 = op then e.2 else 0 := by
      rw [count_add]
      split
      · next he =>
        rw [if_pos he] at h
        exact Nat.mod_eq_of_lt (by omega)
      · rfl
    rw [update, List.foldl_cons, ← update, ih (by omega), hstep, Nat.add_assoc]

theorem mem_keys_update (t : OpcodeTally) (es : List (Opcode × Nat)) :
    op ∈ (t.update es).counts.keys ↔ op ∈ t.counts.keys ∨ op ∈ es.map Prod.fst := by
  induction es generalizing t with
  | nil => simp [update]
  | cons e es ih =>
    have hstep : op ∈ (t.add e).counts.keys ↔ op ∈ t.counts.keys ∨ op = e.1 := by
      rw [add, OrderedMap.insert, OrderedMap.keys, OrderedMap.keys, OrderedMap.keys_insertEntry]
      split
      · next h => exact (or_iff_left_of_imp fun heq => heq ▸ h).symm
      · simp
    rw [update, List.foldl_cons, ← update, ih, hstep, List.map_cons, List.mem_cons, or_assoc]

/-- Enters blocks one after the other: the tally is told what each of them holds. -/
def enter (f : Function) (t : OpcodeTally) (order : List BlockId) : OpcodeTally :=
  order.foldl (fun t b => t.update (f.histogram b)) t

theorem enter_eq_update (f : Function) (t : OpcodeTally) (order : List BlockId) :
    t.enter f order = t.update (order.flatMap f.histogram) := by
  rw [enter, update, List.foldl_flatMap]
  rfl

end OpcodeTally

theorem Function.added_order (f : Function) {order : List BlockId}
    (horder : order.Perm f.blocks.keys) (op : Opcode) :
    added op (order.flatMap f.histogram) = Opcode.countNamed f.staticCounts op.name := by
  rw [countNamed_staticCounts_eq_sum, ← (horder.map _).sum_nat, added_flatMap]
  exact congrArg List.sum (List.map_congr_left fun b _ => f.added_histogram b op)

/-! ## Functions and modules -/

/-- The counts of a function agree: those of all its instructions by name, those of its blocks and
    those of a tally that enters every block once. -/
structure Function.CountsAgree (f : Function) : Prop where
  /-- The static counts go up by one at the name of each instruction. -/
  static_counted : Opcode.named f.staticCounts =
    (Counts.ofKeys (f.instructions.map fun i => i.opcode.name)).entries
  /-- The counts of a block go up by one at the opcode of each instruction. -/
  block_counted : ∀ b, f.histogram b =
    (Counts.ofKeys ((f.instructionsAt b).map Instruction.opcode)).entries
  /-- The static count of an opcode is the sum of its counts in all blocks. -/
  static_eq_sum : ∀ op, Opcode.countNamed f.staticCounts op.name =
    (f.blocks.keys.map fun b => countAt (f.histogram b) op).sum
  /-- It is also the count of a tally, in whatever order the blocks are entered. -/
  static_eq_tally : ∀ op order, order.Perm f.blocks.keys →
    Opcode.countNamed f.staticCounts op.name < UInt64.size →
    (OpcodeTally.fresh.enter f order).count op = Opcode.countNamed f.staticCounts op.name
  /-- All static counts together are the number of instructions. -/
  static_total : (f.staticCounts.map Prod.snd).sum = f.instructions.length
  /-- All counts of a block together are the number of its instructions. -/
  block_total : ∀ b, ((f.histogram b).map Prod.snd).sum = (f.instructionsAt b).length
  /-- All counts of a tally together are the number of instructions. -/
  tally_total : ∀ order, order.Perm f.blocks.keys → f.instructions.length < UInt64.size →
    (Opcode.all.map (OpcodeTally.fresh.enter f order).count).sum = f.instructions.length
  /-- The opcodes with a static count are those whose count is positive. -/
  static_listed : ∀ op, op ∈ f.staticCounts.map Prod.fst ↔
    0 < Opcode.countNamed f.staticCounts op.name
  /-- So are those with a count in a block. -/
  block_listed : ∀ b op, op ∈ (f.histogram b).map Prod.fst ↔ 0 < countAt (f.histogram b) op
  /-- So are those that a tally has seen. -/
  tally_listed : ∀ op order, order.Perm f.blocks.keys →
    Opcode.countNamed f.staticCounts op.name < UInt64.size →
    (op ∈ (OpcodeTally.fresh.enter f order).counts.keys ↔
      0 < (OpcodeTally.fresh.enter f order).count op)

namespace Function

variable (f : Function)

theorem mem_staticCounts (op : Opcode) :
    op ∈ f.staticCounts.map Prod.fst ↔ 0 < Opcode.countNamed f.staticCounts op.name := by
  rw [countNamed_staticCounts]
  exact Opcode.mem_fst_listed Opcode.mem_byName

theorem mem_histogram (b : BlockId) (op : Opcode) :
    op ∈ (f.histogram b).map Prod.fst ↔ 0 < countAt (f.histogram b) op := by
  rw [countAt_histogram, histogram_eq_listed]
  exact Opcode.mem_fst_listed Opcode.mem_all

theorem count_enter {op : Opcode} {order : List BlockId} (horder : order.Perm f.blocks.keys)
    (hfits : Opcode.countNamed f.staticCounts op.name < UInt64.size) :
    (OpcodeTally.fresh.enter f order).count op =
      Opcode.countNamed f.staticCounts op.name := by
  have hfresh : OpcodeTally.fresh.count op = 0 := rfl
  have hadded := f.added_order horder op
  rw [OpcodeTally.enter_eq_update, OpcodeTally.count_update (by omega), hadded, hfresh,
    Nat.zero_add]

theorem mem_keys_enter {op : Opcode} {order : List BlockId} (horder : order.Perm f.blocks.keys) :
    op ∈ (OpcodeTally.fresh.enter f order).counts.keys ↔
      0 < Opcode.countNamed f.staticCounts op.name := by
  have hfresh : op ∉ OpcodeTally.fresh.counts.keys := List.not_mem_nil
  rw [OpcodeTally.enter_eq_update, OpcodeTally.mem_keys_update, or_iff_right hfresh,
    List.map_flatMap, List.mem_flatMap, countNamed_staticCounts_eq_sum,
    List.sum_pos_iff_exists_pos_nat]
  simp only [mem_histogram, horder.mem_iff]
  simp only [List.mem_map, exists_exists_and_eq_and]

theorem sum_count_enter {order : List BlockId} (horder : order.Perm f.blocks.keys)
    (hfits : f.instructions.length < UInt64.size) :
    (Opcode.all.map (OpcodeTally.fresh.enter f order).count).sum = f.instructions.length := by
  have hcount : ∀ op, (OpcodeTally.fresh.enter f order).count op = countIn f.instructions op := by
    intro op
    have hle : countIn f.instructions op ≤ f.instructions.length := List.countP_le_length
    rw [← countNamed_staticCounts] at hle ⊢
    exact f.count_enter horder (by omega)
  rw [List.map_congr_left fun op _ => hcount op, Opcode.sum_countIn]

theorem countsAgree : f.CountsAgree where
  static_counted := f.named_staticCounts
  block_counted := f.histogram_eq_entries
  static_eq_sum := f.countNamed_staticCounts_eq_sum
  static_eq_tally _ _ horder hfits := f.count_enter horder hfits
  static_total := f.sum_staticCounts
  block_total := f.sum_histogram
  tally_total _ horder hfits := f.sum_count_enter horder hfits
  static_listed := f.mem_staticCounts
  block_listed := f.mem_histogram
  tally_listed _ _ horder hfits := by rw [f.count_enter horder hfits, f.mem_keys_enter horder]

end Function

/-- The counts of a module are the sums of the counts of its functions. -/
structure Module.CountsAdd (m : Module) : Prop where
  /-- The counts of one function after the other are added up. -/
  counted : Opcode.named m.staticCounts =
    (m.functions.values.foldl (fun c f => c.addAll (Opcode.named f.staticCounts)) .empty :
      Counts String).entries
  /-- Under each name there is the sum of what the functions have there. -/
  pointwise : ∀ name, Opcode.countNamed m.staticCounts name =
    (m.functions.values.map fun f => Opcode.countNamed f.staticCounts name).sum
  /-- The opcodes with a count are those whose count is positive. -/
  listed : ∀ op, op ∈ m.staticCounts.map Prod.fst ↔
    0 < Opcode.countNamed m.staticCounts op.name

namespace Module

variable (m : Module)

/-- What the functions of a module have under their names. -/
def namedCounts : List (String × Nat) :=
  m.functions.values.flatMap fun f => Opcode.named f.staticCounts

theorem added_namedCounts (name : String) :
    added name m.namedCounts =
      (m.functions.values.map fun f => Opcode.countNamed f.staticCounts name).sum := by
  rw [namedCounts, added_flatMap]
  exact congrArg List.sum (List.map_congr_left fun f _ => f.added_staticCounts name)

theorem foldl_countIn (op : Opcode) :
    (m.functions.values.map Function.instructions).foldl (fun n is => n + countIn is op) 0 =
      added op.name m.namedCounts := by
  rw [added_namedCounts, List.foldl_map, List.sum_eq_foldl, List.foldl_map]
  simp only [Function.countNamed_staticCounts]

/-- The counts of all functions are added up. -/
theorem named_staticCounts :
    Opcode.named m.staticCounts = (Counts.addAll .empty m.namedCounts).entries := by
  refine Opcode.listing_eq_entries Opcode.mem_byName Opcode.sorted_byName ?_ ?_ ?_
  · refine Counts.positive_addAll fun e he => ?_
    obtain ⟨f, -, he⟩ := List.mem_flatMap.1 he
    rw [f.named_staticCounts] at he
    exact Counts.positive_ofKeys _ e he
  · intro name hname
    rw [Counts.isSome_get?_addAll] at hname
    obtain ⟨e, he, rfl⟩ := List.mem_map.1 (hname.resolve_left Bool.false_ne_true)
    obtain ⟨f, -, he⟩ := List.mem_flatMap.1 he
    obtain ⟨e, -, rfl⟩ := List.mem_map.1 he
    exact ⟨e.1, rfl⟩
  · intro op
    rw [Counts.count_addAll_empty, foldl_countIn]

theorem countNamed_staticCounts (name : String) :
    Opcode.countNamed m.staticCounts name = added name m.namedCounts := by
  rw [Opcode.countNamed, named_staticCounts]
  exact Counts.count_addAll_empty _ name

theorem countsAdd : m.CountsAdd where
  counted := by
    rw [named_staticCounts, Counts.addAll, namedCounts, List.foldl_flatMap]
    rfl
  pointwise name := (m.countNamed_staticCounts name).trans (m.added_namedCounts name)
  listed op := by
    rw [countNamed_staticCounts, ← foldl_countIn]
    exact Opcode.mem_fst_listed Opcode.mem_byName

end Module

/-- The static counts of a function, the counts of its blocks and those of a tally agree, and the
    counts of a module are the sums of those of its functions. -/
theorem counts_agree : (∀ f : Function, f.CountsAgree) ∧ ∀ m : Module, m.CountsAdd :=
  ⟨Function.countsAgree, Module.countsAdd⟩

/-- A block with some instructions. -/
def Block.holding (number : Nat) (insts : List Nat) : BlockId × Block :=
  (.ofNat number, { Block.fresh (.ofNat number) "b" with instructions := insts.map InstId.ofSlot })

/-- The blocks share an instruction, list another one twice and name one that does not exist. One
    block has no instruction, and one instruction is in no block. -/
def Function.scrambled : Function where
  name := "scrambled"
  params := []
  blocks := .ofList [Block.holding 4 [0, 2, 0, 9], Block.holding 1 [], Block.holding 3 [2, 1, 0]]
  insts := #[
    ⟨.ofSlot 0, none, .alloca, [], [], [], .ofNat 4⟩,
    ⟨.ofSlot 1, none, .ret, [], [], [], .ofNat 3⟩,
    ⟨.ofSlot 2, none, .load, [.inst (.ofSlot 0)], [], [], .ofNat 4⟩,
    ⟨.ofSlot 3, none, .xor, [], [], [], .ofNat 4⟩]

theorem counts_agree_scrambled :
    ([3, 4, 1].map BlockId.ofNat).Perm Function.scrambled.blocks.keys ∧
      Opcode.named Function.scrambled.staticCounts = [("alloca", 3), ("load", 2), ("ret", 1)] ∧
      (OpcodeTally.fresh.enter .scrambled ([3, 4, 1].map BlockId.ofNat)).count .alloca = 3 := by
  have hperm : ([3, 4, 1].map BlockId.ofNat).Perm Function.scrambled.blocks.keys := by decide
  have hcounts : Opcode.named Function.scrambled.staticCounts =
      [("alloca", 3), ("load", 2), ("ret", 1)] := by decide +kernel
  have htally := (And.left counts_agree .scrambled).static_eq_tally .alloca _ hperm
  rw [Opcode.countNamed, hcounts] at htally
  exact ⟨hperm, hcounts, htally (by decide)⟩

end FlowFacts
