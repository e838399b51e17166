import FlowFacts.Program.Builder
import FlowFacts.Proofs.Agreement

/-!
# Runs of a builder

What every step of a builder keeps holds of the functions that builders hand over. In particular
every instruction of such a function carries the number of its own slot.
-/

namespace FlowFacts

theorem Function.size_linked (f : Function) : f.linked.blocks.size = f.blocks.size := by
  simp [linked, OrderedMap.size, OrderedMap.mapWithKey]

theorem Function.block?_linked (f : Function) (id : BlockId) :
    f.linked.block? id = (f.block? id).map fun block =>
      { block with
        predecessors := ((f.transfers.filter fun t => t.2 = id).map Prod.fst).eraseDups
        successors := ((f.transfers.filter fun t => t.1 = id).map Prod.snd).eraseDups } :=
  OrderedMap.get?_mapWithKey _ _ _

namespace Builder

variable {b b' : Builder} {name : String} {steps : List Step}

/-- What every step keeps is kept by a run. -/
theorem run_induction {P : Builder → Prop} (h : P b)
    (hstep : ∀ {b b' : Builder} {s : Step}, P b → b.step s = .ok b' → P b') : P (b.run steps) := by
  unfold run
  induction steps generalizing b with
  | nil => exact h
  | cons s steps ih =>
    rw [List.foldl_cons]
    cases hs : b.step s with
    | error e => exact ih h
    | ok next => exact ih (hstep h hs)

theorem size_le_createBlock (b : Builder) (label : String) :
    b.function.blocks.size ≤ (b.createBlock label).function.blocks.size := by
  have hinsert : ∀ (k : BlockId) (block : Block) (es : List (BlockId × Block)),
      es.length ≤ (OrderedMap.insertEntry k block es).length := by
    intro k block es
    induction es with
    | nil => simp
    | cons e es ih =>
      rw [OrderedMap.insertEntry]
      split_ifs
      · simp
      · simpa using ih
  exact hinsert _ _ _

theorem build_eq_ok {f : Function} (h : b.build = .ok f) :
    f = b.function.linked ∧ b.faults = [] ∧ closingFaults b.function = [] := by
  unfold build at h
  split at h
  · next hfaults =>
    obtain ⟨hnoted, hclosing⟩ := List.append_eq_nil_iff.1 hfaults
    exact ⟨(Except.ok.inj h).symm, hnoted, hclosing⟩
  · cases h

end Builder

/-! ## Numbers -/

/-- The instruction that a number leads to carries that number. -/
def Function.Numbered (f : Function) : Prop :=
  ∀ {id : InstId} {inst : Instruction}, f.inst? id = some inst → inst.id = id

namespace Builder

variable {b b' : Builder} {name : String} {steps : List Step}

/-- Every slot of the table holds an instruction with the slot's number. -/
def TableNumbered (b : Builder) : Prop :=
  ∀ {slot : Nat} {inst : Instruction}, b.function.insts[slot]? = some inst →
    inst.id = .ofSlot slot

theorem TableNumbered.push (h : b.TableNumbered) (opcode : Opcode) (operands : List Operand)
    (incoming targets : List BlockId) :
    (b.push opcode operands incoming targets).TableNumbered := by
  unfold Builder.push
  cases b.current with
  | none => exact h
  | some block =>
    intro slot inst hslot
    simp only [place, Array.getElem?_push] at hslot
    split at hslot
    · next heq =>
      cases hslot
      rw [heq]
      rfl
    · exact h hslot

theorem TableNumbered.setName (h : b.TableNumbered) (id : InstId) (name : String) :
    (b.setName id name).TableNumbered := by
  intro slot inst hslot
  simp only [Builder.setName, Array.getElem?_modify] at hslot
  split at hslot
  · obtain ⟨old, hold, rfl⟩ := Option.map_eq_some_iff.1 hslot
    have hid : old.id = .ofSlot slot := h hold
    exact hid
  · exact h hslot

theorem TableNumbered.step (h : b.TableNumbered) {s : Step} (hs : b.step s = .ok b') :
    b'.TableNumbered := by
  cases s with
  | param | createBlock | block =>
    cases hs
    exact h
  | switchTo block =>
    simp only [Builder.step, Builder.switchTo] at hs
    split at hs
    · cases hs
      exact h
    · cases hs
  | setName inst name =>
    cases hs
    exact h.setName inst name
  | append | appendMerge =>
    cases hs
    exact h.push _ _ _ _
  | appendTerminator opcode operands targets =>
    cases hs
    unfold Builder.appendTerminator
    split
    · exact h.push _ _ _ _
    · exact TableNumbered.push (b := b.note _) h _ _ _ _

/-- In a function that a builder hands over, numbers lead to the instructions that carry them. -/
theorem numbered_of_build {f : Function} (h : ((fresh name).run steps).build = .ok f) :
    f.Numbered := by
  obtain ⟨rfl, -, -⟩ := build_eq_ok h
  have htable : ((fresh name).run steps).TableNumbered :=
    run_induction (P := TableNumbered) (by simp [TableNumbered, fresh, Function.fresh])
      fun hb hs => hb.step hs
  intro id inst hinst
  rw [htable hinst, InstId.ofSlot_slot]

end Builder

end FlowFacts
