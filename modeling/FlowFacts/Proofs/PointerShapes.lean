import FlowFacts.Proofs.PointerFrame

/-!
# The shape of points-to facts

Stores take targets as slots and loads look behind targets, so what may point and what may be
pointed to feed each other. Nevertheless every map of a run has the same shape: all targets are
objects of allocations, so are the memory objects that are present, every location that is present
has a target, and values carry indices of instructions. This holds of the maps on the edges at any
time, and of those that the run has on record.

Main results:

* `Solver.Reachable.holds_recorded`: what an analysis keeps holds of every value of a run, the
  recorded ones included.
* `PointsTo.Shaped.filter_isMemory`, `PointsTo.Shaped.targets?_store`: on maps of that shape a load
  passes over no target, and a store changes no value.
* `solve_shaped`: the shape of all maps of a run.
-/

namespace FlowFacts

/-! ## Recorded values -/

section Records

variable {α : Type}

/-- The value stands on an edge, or it did so according to the record. -/
def Recorded (values : Array α) (history : Option (Array (List α))) (x : α) : Prop :=
  x ∈ values ∨ ∃ record ∈ history, ∃ held ∈ record, x ∈ held

variable {st st' : SolverState α} {order : Order} {e : Edge} {x v : α}

theorem SolverState.recorded_store
    (h : Recorded (st.store order e v).values (st.store order e v).history x) :
    Recorded st.values st.history x ∨ x = v := by
  rcases h with h | ⟨record, hrecord, held, hheld, hx⟩
  · exact (Array.mem_or_eq_of_mem_setIfInBounds h).imp_left .inl
  · obtain ⟨old, hold, rfl⟩ := Option.map_eq_some_iff.1 hrecord
    obtain ⟨i, hi⟩ := Array.mem_iff_getElem?.1 hheld
    rw [Array.getElem?_modify] at hi
    split_ifs at hi
    · obtain ⟨before, hbefore, rfl⟩ := Option.map_eq_some_iff.1 hi
      rcases List.mem_append.1 hx with hx | hx
      · exact .inl (.inr ⟨old, hold, before, Array.mem_of_getElem? hbefore, hx⟩)
      · exact .inr (List.mem_singleton.1 hx)
    · exact .inl (.inr ⟨old, hold, held, Array.mem_of_getElem? hi, hx⟩)

variable [Domain α] {a : Analysis α} {ctx : FlowContext} {Holds : α → Prop}

theorem Analysis.Keeps.value (ha : a.Keeps ctx Holds)
    (hst : ∀ x, Recorded st.values st.history x → Holds x) (e : Edge) : Holds (st.value e) := by
  unfold SolverState.value
  rw [Array.getD_eq_getD_getElem?]
  cases hvalue : st.values[e.id]? with
  | none => exact ha.bottom
  | some x => exact hst x (.inl (Array.mem_of_getElem? hvalue))

theorem Analysis.Keeps.input (ha : a.Keeps ctx Holds)
    (hst : ∀ x, Recorded st.values st.history x → Holds x) (n : Nat) :
    Holds (st.input ctx.graph n) := by
  refine ha.joinAll fun x hx => ?_
  obtain ⟨e, -, rfl⟩ := List.mem_map.1 hx
  exact ha.value hst e

/-- Before the first visit each edge holds the initial or the least value, and its record has
    nothing else. -/
theorem Analysis.Keeps.holds_start (ha : a.Keeps ctx Holds) (g : FlowGraph)
    (config : SolverConfig) :
    ∀ x, Recorded (SolverState.start a g config).values
      (SolverState.start a g config).history x → Holds x := by
  have hvalues : ∀ x ∈ (SolverState.start a g config).values, Holds x := by
    intro x hx
    obtain ⟨i, hi⟩ := Array.mem_iff_getElem?.1 hx
    have hvalue : (SolverState.start a g config).valueAt i = x := by
      rw [SolverState.valueAt, Array.getD_eq_getD_getElem?, hi, Option.getD_some]
    rcases SolverState.valueAt_start a g config i with h | h
    · exact (hvalue.symm.trans h) ▸ ha.initial
    · exact (hvalue.symm.trans h) ▸ ha.bottom
  rintro x (hx | ⟨record, hrecord, held, hheld, hx⟩)
  · exact hvalues x hx
  · rw [SolverState.history_start] at hrecord
    split_ifs at hrecord
    · obtain rfl := Option.some.inj hrecord
      obtain ⟨v, hv, rfl⟩ := Array.mem_map.1 hheld
      exact List.mem_singleton.1 hx ▸ hvalues v hv
    · cases hrecord

variable [DecidableEq α]

theorem Analysis.Keeps.holds_offer (ha : a.Keeps ctx Holds)
    (hst : ∀ x, Recorded st.values st.history x → Holds x) (hv : Holds v) :
    ∀ x, Recorded (st.offer order e v).values (st.offer order e v).history x → Holds x := by
  intro x hx
  rw [SolverState.offer_eq] at hx
  split_ifs at hx
  · exact hst x hx
  · rcases SolverState.recorded_store hx with hx | rfl
    · exact hst x hx
    · exact ha.join (ha.value hst e) hv

namespace Solver

theorem Step.holds_recorded (ha : a.Keeps ctx Holds) (h : Step a ctx order st st')
    (hst : ∀ x, Recorded st.values st.history x → Holds x) :
    ∀ x, Recorded st'.values st'.history x → Holds x := by
  obtain ⟨node, rest, produced, -, hproduce, rfl⟩ := h.inv
  obtain ⟨inst, hinst, htransfer, -⟩ := produce_eq_ok_iff.1 hproduce
  have hproduced := ha.transfer hinst (ha.input hst node) htransfer
  refine SolverState.offerAll_induction
    (P := fun st => ∀ x, Recorded st.values st.history x → Holds x) hst fun st o ho hst => ?_
  exact ha.holds_offer hst (hproduced o.2 (List.of_mem_zip ho).2)

/-- What an analysis keeps holds of every value that a run puts on an edge. -/
theorem Reachable.holds_recorded {config : SolverConfig} (ha : a.Keeps ctx Holds)
    (h : Reachable a ctx config st) : ∀ x, Recorded st.values st.history x → Holds x := by
  induction h with
  | start => exact ha.holds_start ctx.graph config
  | step _ hstep ih => exact hstep.holds_recorded ha ih

end Solver

end Records

/-! ## Loads and stores on maps of that shape -/

namespace PointsTo.Shaped

variable {A A' V V' : Nat → Prop} {m : PointsTo}

theorem imp (h : m.Shaped A V) (hA : ∀ i, A i → A' i) (hV : ∀ i, V i → V' i) :
    m.Shaped A' V' where
  within {l x} hx := by
    have hl := h.within hx
    cases l with
    | value i => exact hV i hl
    | memory i => exact hA i hl
  target hx := (h.target hx).imp fun i => And.imp_left (hA i)
  inhabited := h.inhabited

/-- A load that looks at memory objects only passes over nothing. -/
theorem filter_isMemory (h : m.Shaped A V) (l : Location) :
    (m.targets l).items.filter Location.isMemory = (m.targets l).items := by
  refine List.filter_eq_self.2 fun t ht => ?_
  obtain ⟨i, -, rfl⟩ := h.target (says_some.2 (SortedSet.mem_def.2 ht))
  rfl

/-- A store leaves what is known of values alone. -/
theorem targets?_store (h : m.Shaped A V) (value pointer i : Nat) :
    (Pointer.store m value pointer).targets? (.value i) = m.targets? (.value i) := by
  refine Pointer.targets?_store fun hslot => ?_
  obtain ⟨j, -, hj⟩ := h.target (says_some.2 hslot)
  cases hj

end PointsTo.Shaped

/-! ## Answers -/

/-- In every map on an edge and on record, all targets and all memory objects that are present are
    objects of allocations, every location that is present has a target, and values carry indices of
    instructions. So in no state of the run does a load pass over a target, or a store change what
    is known of a value. -/
theorem solve_shaped (f : Function) (config : SolverConfig) {s : Solution PointsTo}
    (h : solve Pointer.analysis f config = .ok s) :
    (∀ m, Recorded s.values s.history m →
      m.Shaped
        (fun i => ∃ inst, (FlowGraph.build f .forward).instruction? f i = some inst ∧
          inst.opcode = .alloca)
        (fun i => 1 ≤ i ∧ i < (FlowGraph.build f .forward).nodeCount)) ∧
    ∀ st, Solver.Reachable Pointer.analysis (Pointer.analysis.context f) config st → ∀ n,
      (∀ pointer, ((st.input (FlowGraph.build f .forward) n).targets pointer).items.filter
          Location.isMemory = ((st.input (FlowGraph.build f .forward) n).targets pointer).items) ∧
      ∀ value pointer i,
        (Pointer.store (st.input (FlowGraph.build f .forward) n) value pointer).targets?
          (.value i) = (st.input (FlowGraph.build f .forward) n).targets? (.value i) := by
  have hkeeps := Pointer.keeps_shaped (Pointer.analysis.context f)
  refine ⟨fun m hm => ?_, fun st hst n => ?_⟩
  · obtain ⟨st, hreach, -, rfl⟩ := solve_eq_ok h
    refine (hreach.holds_recorded hkeeps m hm).imp (fun i hi => hi) fun i hi => ?_
    exact (FlowGraph.mem_nodes.1 hi).imp_right Nat.lt_succ_of_le
  · have hshaped := hkeeps.input (hst.holds_recorded hkeeps) n
    exact ⟨hshaped.filter_isMemory, hshaped.targets?_store⟩

/-- In `chaseLoop` the edge back into the loop once held a map in which the merge at node 5 points
    to the first object only, and this object to the second one. -/
theorem solve_shaped_chaseLoop :
    ∃ s m, solve Pointer.analysis chaseLoop ⟨.lifo, true⟩ = .ok s ∧
      (∃ record held, s.history = some record ∧ record[4]? = some held ∧ held[2]? = some m) ∧
      (m.targets (.value 5)).items = [.memory 1] ∧ (m.targets (.memory 1)).items = [.memory 2] ∧
      m.Shaped
        (fun i => ∃ inst, (FlowGraph.build chaseLoop .forward).instruction? chaseLoop i =
          some inst ∧ inst.opcode = .alloca)
        (fun i => 1 ≤ i ∧ i < (FlowGraph.build chaseLoop .forward).nodeCount) := by
  obtain ⟨s, hs⟩ : ∃ s, solve Pointer.analysis chaseLoop ⟨.lifo, true⟩ = .ok s :=
    exists_ok_of_toBool (by decide +kernel)
  have hvalue : (solve Pointer.analysis chaseLoop ⟨.lifo, true⟩).toOption.bind (fun s =>
      s.history.bind fun record => record[4]?.bind fun held => held[2]?.map fun m =>
        ((m.targets (.value 5)).items, (m.targets (.memory 1)).items)) =
      some ([.memory 1], [.memory 2]) := by
    decide +kernel
  rw [hs, Except.toOption, Option.bind_some] at hvalue
  obtain ⟨record, hrecord, hvalue⟩ := Option.bind_eq_some_iff.1 hvalue
  obtain ⟨held, hheld, hvalue⟩ := Option.bind_eq_some_iff.1 hvalue
  obtain ⟨m, hm, hvalue⟩ := Option.map_eq_some_iff.1 hvalue
  obtain ⟨hmerge, hobject⟩ := Prod.mk.inj hvalue
  refine ⟨s, m, hs, ⟨record, held, hrecord, hheld, hm⟩, hmerge, hobject, ?_⟩
  refine (solve_shaped chaseLoop ⟨.lifo, true⟩ hs).1 m (.inr ⟨record, hrecord, held, ?_, ?_⟩)
  · exact Array.mem_of_getElem? hheld
  · exact List.mem_of_getElem? hm

end FlowFacts
