import FlowFacts.Proofs.Termination

/-!
# Visits first in, first out

In this order every node is visited once, by index, before any node is visited again: what is listed
meanwhile waits behind the nodes of the first round. So a run that fails at a node has succeeded at
all nodes with smaller indices.

Main results:

* `Solver.Step.pending_fifo`: what one visit does to the list.
* `Solver.Reachable.pending_fifo`: what is listed, and which visits have succeeded.
* `Analysis.FiniteFacts.solve_eq_error_fifo`: where a run fails.
-/

namespace FlowFacts

section

variable {α : Type} [Domain α] [DecidableEq α] {a : Analysis α} {ctx : FlowContext}
  {config : SolverConfig} {st st' : SolverState α}

theorem SolverState.pending_offerAll_fifo (st : SolverState α) (offers : List (Edge × α)) :
    ∃ more, (st.offerAll .fifo offers).pending = st.pending ++ more := by
  refine offerAll_induction (P := fun st' => ∃ more, st'.pending = st.pending ++ more)
    ⟨[], (List.append_nil _).symm⟩ fun st' o _ h => ?_
  obtain ⟨more, hmore⟩ := h
  rw [offer_eq]
  split_ifs
  · exact ⟨more, hmore⟩
  · refine ⟨more ++ [o.1.target], ?_⟩
    rw [← List.append_assoc, ← hmore]
    rfl

namespace Solver

theorem visit_eq_error_iff {order : Order} {node : Nat} {rest : List Nat} {fault : FlowFault} :
    visit a ctx order node { st with pending := rest } = .error fault ↔
      produce a ctx node (st.input ctx.graph node) = .error fault := by
  unfold visit produce
  cases ctx.instruction? node with
  | none => simp
  | some inst =>
    simp only [bind, Except.bind, SolverState.input_pending]
    cases a.transfer ctx inst node (st.input ctx.graph node) (ctx.graph.outgoing node) with
    | error fault => simp
    | ok produced =>
      simp only
      split_ifs
      · simp [pure, Except.pure]
      · simp

/-- A visit takes the first node off the list and puts nodes at its end. -/
theorem Step.pending_fifo (h : Step a ctx .fifo st st') :
    ∃ node rest more, st.pending = node :: rest ∧ st'.pending = rest ++ more ∧
      ∃ x ys, produce a ctx node x = .ok ys := by
  obtain ⟨node, rest, produced, hpending, hproduce, rfl⟩ := h.inv
  obtain ⟨more, hmore⟩ := SolverState.pending_offerAll_fifo
    { st with pending := rest, stats := { st.stats with visits := st.stats.visits + 1 } }
    ((ctx.graph.outgoing node).zip produced)
  exact ⟨node, rest, more, hpending, hmore, _, produced, hproduce⟩

/-- Nodes are visited by index, and what is listed meanwhile waits behind all of them. -/
theorem Reachable.pending_fifo (hfifo : config.order = .fifo) (h : Reachable a ctx config st) :
    (∃ more, st.pending = ctx.graph.nodes.drop st.stats.visits ++ more) ∧
      ∀ n ∈ ctx.graph.nodes.take st.stats.visits, ∃ x ys, produce a ctx n x = .ok ys := by
  induction h with
  | start =>
    refine ⟨⟨[], ?_⟩, by simp [SolverState.start]⟩
    show config.order.start ctx.graph.nodes = ctx.graph.nodes.drop 0 ++ []
    rw [hfifo, List.drop_zero, List.append_nil]
    rfl
  | @step st st' _ hstep ih =>
    obtain ⟨⟨more, hmore⟩, hdone⟩ := ih
    rw [hfifo] at hstep
    obtain ⟨node, rest, new, hpending, hafter, hproduce⟩ := hstep.pending_fifo
    rw [hstep.balance.1, hafter]
    rw [hpending] at hmore
    cases hdrop : ctx.graph.nodes.drop st.stats.visits with
    | nil =>
      -- Every node has been visited already.
      have hlength := List.drop_eq_nil_iff.1 hdrop
      rw [List.drop_eq_nil_of_le (Nat.le_succ_of_le hlength),
        List.take_of_length_le (Nat.le_succ_of_le hlength)]
      rw [List.take_of_length_le hlength] at hdone
      exact ⟨⟨rest ++ new, rfl⟩, hdone⟩
    | cons next later =>
      rw [hdrop, List.cons_append, List.cons.injEq] at hmore
      obtain ⟨rfl, rfl⟩ := hmore
      have hnext : ctx.graph.nodes[st.stats.visits]? = some node := by
        rw [← List.head?_drop, hdrop, List.head?_cons]
      refine ⟨⟨more ++ new, ?_⟩, fun n hn => ?_⟩
      · rw [← List.drop_drop, hdrop, List.drop_succ_cons, List.drop_zero, List.append_assoc]
      · rw [List.take_add_one, hnext, List.mem_append] at hn
        rcases hn with hn | hn
        · exact hdone n hn
        · rw [List.mem_singleton.1 hn]
          exact hproduce

end Solver

end

/-- In the order first in, first out an analysis that settles fails at a node only after it has
    succeeded at all nodes with smaller indices. -/
theorem Analysis.FiniteFacts.solve_eq_error_fifo {α β : Type} [Domain α] [DecidableEq α]
    [LawfulDomain α] {a : Analysis α} {config : SolverConfig} {Holds : α → Prop}
    {Knows : α → β → Prop} {facts : Finset β} {f : Function}
    (hfacts : a.FiniteFacts (a.context f) Holds Knows facts) (hfifo : config.order = .fifo)
    {err : FlowError} (h : solve a f config = .error err) :
    ∃ n ∈ (a.context f).graph.nodes, ∃ x fault,
      Solver.produce a (a.context f) n x = .error fault ∧ err = .malformed f.name fault ∧
      ∀ m ∈ (a.context f).graph.nodes, m < n → ∃ y ys,
        Solver.produce a (a.context f) m y = .ok ys := by
  obtain ⟨st, node, rest, fault, hreach, hpending, hvisit, herr⟩ := hfacts.solve_eq_error h
  have hnode := hreach.pending_subset (a.wellFormed_context f) (hpending ▸ List.mem_cons_self)
  have hfault := Solver.visit_eq_error_iff.1 hvisit
  refine ⟨node, hnode, _, fault, hfault, herr, fun m hm hlt => ?_⟩
  obtain ⟨⟨more, hmore⟩, hdone⟩ := hreach.pending_fifo hfifo
  refine hdone m ?_
  by_cases hvisits : st.stats.visits < (a.context f).graph.nodes.length
  · -- The first round is not over, so the node that failed is the next one by index.
    have hnext : node = 1 + st.stats.visits := by
      rw [hpending, List.drop_eq_getElem_cons hvisits, List.cons_append, List.cons.injEq] at hmore
      simpa [FlowGraph.nodes] using hmore.1
    have hpos := (FlowGraph.mem_nodes.1 hm).1
    refine List.mem_of_getElem? (i := m - 1) ?_
    rw [List.getElem?_take_of_lt (by omega), List.getElem?_eq_getElem (by omega)]
    simp only [FlowGraph.nodes, List.getElem_range']
    congr 1
    omega
  · rwa [List.take_of_length_le (Nat.le_of_not_lt hvisits)]

end FlowFacts
