import FlowFacts.Proofs.PointerConstraints
import Mathlib.Data.List.Chain

/-!
# The history of a run

A run can keep a record of the values that each edge held. The record is an account of the run: it
has one list for each edge, which starts with the value that the edge had before the first visit,
rises strictly and ends with the value that the edge has now, and each entry behind the first one
is a growth that the run counted. Nothing in a run looks at the record, so a run that keeps one and
a run that keeps none differ in nothing else.

Nothing is asked of the analysis: values are only ever replaced by a join with themselves, so they
rise even if the analysis produces smaller values from larger inputs.

Main results:

* `Solver.iterate_forget`: leaving the record out of a state leaves it out of what the run makes of
  the state, and changes no error.
* `Chronicle.push`: a growth of an edge extends the account.
* `Solver.Reachable.chronicled`: every state of a run that keeps a record has it right.
* `solve_chronicle`: both, for the answers of the solver.
-/

namespace FlowFacts

/-! ## Runs without a record -/

section Forget

variable {α : Type}

/-- The state without its record. -/
def SolverState.forget (st : SolverState α) : SolverState α := { st with history := none }

/-- The solution without its record. -/
def Solution.forget (s : Solution α) : Solution α := { s with history := none }

variable [Domain α]

namespace SolverState

theorem forget_start (a : Analysis α) (g : FlowGraph) (config : SolverConfig) :
    (start a g config).forget = start a g { config with recordHistory := false } := rfl

variable [DecidableEq α]

theorem forget_offer (order : Order) (st : SolverState α) (e : Edge) (v : α) :
    (st.offer order e v).forget = st.forget.offer order e v := by
  have hvalue : st.forget.value e = st.value e := rfl
  rw [offer_eq, offer_eq, hvalue]
  split_ifs
  · rfl
  · rfl

theorem forget_offerAll (order : Order) (st : SolverState α) (offers : List (Edge × α)) :
    (st.offerAll order offers).forget = st.forget.offerAll order offers := by
  induction offers generalizing st with
  | nil => rfl
  | cons o os ih => rw [offerAll_cons, offerAll_cons, ih, forget_offer]

end SolverState

variable [DecidableEq α] {a : Analysis α} {ctx : FlowContext}

/-- A visit sees the values on the edges only. -/
theorem Solver.visit_forget (order : Order) (node : Nat) (st : SolverState α) :
    visit a ctx order node st.forget = (visit a ctx order node st).map SolverState.forget := by
  unfold visit
  cases ctx.instruction? node with
  | none => rfl
  | some inst =>
    have hinput : st.forget.input ctx.graph node = st.input ctx.graph node := rfl
    simp only [bind, Except.bind, hinput]
    cases a.transfer ctx inst node (st.input ctx.graph node) (ctx.graph.outgoing node) with
    | error fault => rfl
    | ok produced =>
      simp only
      split_ifs
      · refine congrArg Except.ok ?_
        rw [SolverState.forget_offerAll]
        rfl
      · rfl

theorem Solver.iterate_forget (order : Order) (fuel : Nat) (st : SolverState α) :
    iterate a ctx order fuel st.forget =
      (iterate a ctx order fuel st).map SolverState.forget := by
  induction fuel using Nat.strongRecOn generalizing st with
  | _ fuel ih =>
    rw [iterate.eq_def, iterate.eq_def a ctx order fuel st]
    have hsame : st.forget.pending = st.pending := rfl
    simp only [hsame]
    cases st.pending with
    | nil => rfl
    | cons node rest =>
      cases fuel with
      | zero => rfl
      | succ fuel =>
        have hrest : { st.forget with pending := rest } = { st with pending := rest }.forget := rfl
        simp only [hrest, visit_forget]
        cases visit a ctx order node { st with pending := rest } with
        | error fault => rfl
        | ok next => exact ih fuel (Nat.lt_succ_self fuel) next

/-- Keeping no record changes neither an error nor anything else of an answer. -/
theorem solve_forget (f : Function) (config : SolverConfig) :
    solve a f { config with recordHistory := false } =
      (solve a f config).map Solution.forget := by
  rw [solve_eq_map, solve_eq_map, ← SolverState.forget_start, Solver.iterate_forget]
  cases Solver.iterate a (a.context f) config.order (Solver.visitLimit a (a.context f).graph)
    (.start a (a.context f).graph config) with
  | error e => rfl
  | ok st => rfl

end Forget

/-! ## The account of a run -/

/-- Strictly below in the order of the domain. -/
def Domain.LT {α : Type} [Domain α] (x y : α) : Prop := LE x y ∧ ¬LE y x

/-- A join that changes a value raises it. -/
theorem Domain.lt_join {α : Type} [Domain α] [LawfulDomain α] {x y : α} (h : join x y ≠ x) :
    LT x (join x y) :=
  ⟨le_join_left x y, fun hle => h (le_antisymm hle (le_join_left x y))⟩

/-- There is a value for each edge, and the record has a list for each edge, which starts with the
    value before the first visit, rises strictly and ends with the value now. In all the record has
    an entry for each edge and one for each growth. -/
structure Chronicle {α : Type} [Domain α] (a : Analysis α) (g : FlowGraph) (values : Array α)
    (updates : Nat) (record : Array (List α)) : Prop where
  values_size : values.size = g.edgeCount
  record_size : record.size = g.edgeCount
  head : ∀ {i : Nat} {held : List α}, record[i]? = some held →
    held.head? = some (if g.entryEdge = some i then a.initial else Domain.bottom)
  rises : ∀ {i : Nat} {held : List α}, record[i]? = some held → held.IsChain Domain.LT
  last : ∀ {i : Nat} {held : List α}, record[i]? = some held → held.getLast? = values[i]?
  total : record.toList.flatten.length = g.edgeCount + updates

section Account

variable {α : Type}

/-- One more entry in one list is one more entry in all. -/
theorem length_flatten_modify {lists : List (List α)} {i : Nat} (h : i < lists.length) (x : α) :
    (lists.modify i (· ++ [x])).flatten.length = lists.flatten.length + 1 := by
  induction lists generalizing i with
  | nil => exact absurd h (Nat.not_lt_zero i)
  | cons held lists ih =>
    cases i with
    | zero =>
      simp only [List.modify_zero_cons, List.flatten_cons, List.length_append,
        List.length_singleton]
      omega
    | succ i =>
      simp only [List.modify_succ_cons, List.flatten_cons, List.length_append]
      rw [ih (Nat.lt_of_succ_lt_succ h)]
      omega

variable [Domain α] {a : Analysis α} {g : FlowGraph} {values : Array α} {updates : Nat}
  {record : Array (List α)}

theorem Chronicle.start (a : Analysis α) (g : FlowGraph) (config : SolverConfig) :
    Chronicle a g (SolverState.start a g config).values 0
      ((SolverState.start a g config).values.map fun v => [v]) := by
  have hsize := Solver.size_start (a := a) g config
  have hheld : ∀ {i : Nat} {held : List α},
      ((SolverState.start a g config).values.map fun v => [v])[i]? = some held →
      ∃ v, (SolverState.start a g config).values[i]? = some v ∧ held = [v] := by
    intro i held h
    rw [Array.getElem?_map] at h
    obtain ⟨v, hv, rfl⟩ := Option.map_eq_some_iff.1 h
    exact ⟨v, hv, rfl⟩
  refine ⟨hsize, by rw [Array.size_map, hsize], fun h => ?_, fun h => ?_, fun h => ?_, ?_⟩
  · obtain ⟨v, hv, rfl⟩ := hheld h
    have hlt := (Array.getElem?_eq_some_iff.1 hv).1
    rw [SolverState.getElem?_start, if_pos (hsize ▸ hlt)] at hv
    exact hv.symm
  · obtain ⟨v, -, rfl⟩ := hheld h
    exact .singleton v
  · obtain ⟨v, hv, rfl⟩ := hheld h
    exact hv.symm
  · rw [Array.toList_map, ← List.flatMap_def, List.flatMap_singleton', Array.length_toList, hsize,
      Nat.add_zero]

/-- A growth of an edge extends the account. -/
theorem Chronicle.push (h : Chronicle a g values updates record) {i : Nat} {x y : α}
    (hx : values[i]? = some x) (hxy : Domain.LT x y) :
    Chronicle a g (values.setIfInBounds i y) (updates + 1) (record.modify i (· ++ [y])) := by
  obtain ⟨hi, -⟩ := Array.getElem?_eq_some_iff.1 hx
  have hplace : i < record.toList.length := by
    rwa [Array.length_toList, h.record_size, ← h.values_size]
  -- The list of an edge is the old one, or it belongs to the edge that grew and has one more entry.
  have hheld : ∀ {j : Nat} {held : List α}, (record.modify i (· ++ [y]))[j]? = some held →
      (j ≠ i ∧ record[j]? = some held) ∨
        (j = i ∧ ∃ old, record[i]? = some old ∧ held = old ++ [y]) := by
    intro j held hj
    rw [Array.getElem?_modify] at hj
    split_ifs at hj with hji
    · obtain ⟨old, hold, rfl⟩ := Option.map_eq_some_iff.1 hj
      exact .inr ⟨hji.symm, old, hji ▸ hold, rfl⟩
    · exact .inl ⟨Ne.symm hji, hj⟩
  refine ⟨by rw [Array.size_setIfInBounds, h.values_size],
    by rw [Array.size_modify, h.record_size], fun hj => ?_, fun hj => ?_, fun hj => ?_, ?_⟩
  · rcases hheld hj with ⟨-, hold⟩ | ⟨rfl, old, hold, rfl⟩
    · exact h.head hold
    · rw [List.head?_append, h.head hold, Option.some_or]
  · rcases hheld hj with ⟨-, hold⟩ | ⟨rfl, old, hold, rfl⟩
    · exact h.rises hold
    · refine List.isChain_append.2 ⟨h.rises hold, .singleton y, ?_⟩
      intro u hu v hv
      rw [h.last hold, hx] at hu
      cases hu
      cases hv
      exact hxy
  · rcases hheld hj with ⟨hne, hold⟩ | ⟨rfl, old, hold, rfl⟩
    · rw [h.last hold, Array.getElem?_setIfInBounds, if_neg (Ne.symm hne)]
    · rw [Array.getElem?_setIfInBounds, if_pos rfl, if_pos hi, List.getLast?_concat]
  · rw [Array.toList_modify, length_flatten_modify hplace, h.total, Nat.add_assoc]

end Account

/-! ## Answers -/

section Answers

variable {α : Type} [Domain α] [DecidableEq α] [LawfulDomain α] {a : Analysis α}
  {ctx : FlowContext} {st st' : SolverState α} {config : SolverConfig}

/-- The state keeps a record, and the record gives a right account of the run so far. -/
def SolverState.Chronicled (a : Analysis α) (g : FlowGraph) (st : SolverState α) : Prop :=
  ∃ record, st.history = some record ∧ Chronicle a g st.values st.stats.updates record

theorem SolverState.Chronicled.offer {order : Order} {g : FlowGraph} {e : Edge} (v : α)
    (h : st.Chronicled a g) (he : e.id < g.edgeCount) : (st.offer order e v).Chronicled a g := by
  rw [offer_eq]
  split_ifs with hjoin
  · exact h
  · obtain ⟨record, hrecord, haccount⟩ := h
    have hvalue : st.values[e.id]? = some (st.value e) := by
      simp [SolverState.value, haccount.values_size, he]
    refine ⟨record.modify e.id (· ++ [Domain.join (st.value e) v]), ?_, ?_⟩
    · simp only [store, hrecord, Option.map_some]
    · exact haccount.push hvalue (Domain.lt_join hjoin)

namespace Solver

theorem Step.chronicled {order : Order} (hg : ctx.graph.WellFormed)
    (h : Step a ctx order st st') (hst : st.Chronicled a ctx.graph) :
    st'.Chronicled a ctx.graph := by
  obtain ⟨node, rest, produced, -, -, rfl⟩ := h.inv
  refine SolverState.offerAll_induction (P := fun st => st.Chronicled a ctx.graph) hst ?_
  intro st o ho hst
  exact hst.offer o.2 (hg.id_lt (mem_edges_of_offer ho).1)

/-- Every state of a run that keeps a record has it right. -/
theorem Reachable.chronicled (hg : ctx.graph.WellFormed) (h : Reachable a ctx config st)
    (hrecord : config.recordHistory = true) : st.Chronicled a ctx.graph := by
  induction h with
  | start =>
    refine ⟨_, ?_, Chronicle.start a ctx.graph config⟩
    rw [SolverState.history_start, if_pos hrecord]
  | step _ hstep ih => exact hstep.chronicled hg ih

end Solver

/-- Recording is invisible and right. With and without a record, and whatever the analysis does,
    the solver fails with the same error or gives the same answer but for the record. The record
    has one list for each edge, which starts with the initial value on the entry edge and with the
    least one elsewhere, rises strictly and ends with the value of the edge; its entries are as many
    as edges and updates. -/
theorem solve_chronicle (a : Analysis α) (f : Function) (order : Order) :
    solve a f { order := order, recordHistory := false } =
      (solve a f { order := order, recordHistory := true }).map Solution.forget ∧
    ∀ s, solve a f { order := order, recordHistory := true } = .ok s →
      ∃ record, s.history = some record ∧
        Chronicle a (FlowGraph.build f a.direction) s.values s.stats.updates record := by
  refine ⟨solve_forget f { order := order, recordHistory := true }, fun s hs => ?_⟩
  obtain ⟨st, hreach, -, rfl⟩ := solve_eq_ok hs
  exact hreach.chronicled (a.wellFormed_context f) rfl

end Answers

/-- In `chaseLoop` the edge back into the loop collects the reaching definitions one after the
    other, from the later ones to the earlier ones. -/
theorem solve_chronicle_chaseLoop :
    ∃ s record held,
      solve Reaching.analysis chaseLoop { order := .lifo, recordHistory := true } = .ok s ∧
      solve Reaching.analysis chaseLoop { order := .lifo } = .ok s.forget ∧
      s.history = some record ∧ record[4]? = some held ∧
      held.map SortedSet.items = [[], [6], [5, 6], [2, 5, 6], [1, 2, 5, 6]] ∧
      s.stats.updates = 22 ∧
      Chronicle Reaching.analysis (FlowGraph.build chaseLoop .forward) s.values s.stats.updates
        record := by
  obtain ⟨s, hs⟩ : ∃ s, solve Reaching.analysis chaseLoop
      { order := .lifo, recordHistory := true } = .ok s :=
    exists_ok_of_toBool (by decide +kernel)
  obtain ⟨hforget, haccount⟩ := solve_chronicle Reaching.analysis chaseLoop .lifo
  obtain ⟨record, hrecord, hchronicle⟩ := haccount s hs
  have hvalue : (solve Reaching.analysis chaseLoop
      { order := .lifo, recordHistory := true }).toOption.bind (fun s =>
        s.history.bind fun record => record[4]?.map fun held =>
          (held.map SortedSet.items, s.stats.updates)) =
      some ([[], [6], [5, 6], [2, 5, 6], [1, 2, 5, 6]], 22) := by
    decide +kernel
  rw [hs, Except.toOption, Option.bind_some, hrecord, Option.bind_some] at hvalue
  obtain ⟨held, hheld, hvalue⟩ := Option.map_eq_some_iff.1 hvalue
  obtain ⟨hitems, hupdates⟩ := Prod.mk.inj hvalue
  rw [hs] at hforget
  exact ⟨s, record, held, hs, hforget, hrecord, hheld, hitems, hupdates, hchronicle⟩

end FlowFacts
