import FlowFacts.Program.Builder
import FlowFacts.Proofs.AnalysisLaws

/-!
# The solver computes fixpoints

A node that is not listed is settled: what the analysis produces there lies below the values of the
outgoing edges. So nothing changes once no node is listed, whatever the analysis does. If the
analysis is monotone, no value is larger than what the analysis produces for the edge either, and
the answer is the least one.

Main results:

* `Reachable.settledAt`: in every reachable state, nodes that are not listed are settled.
* `solve_isFixpoint`: an answer is settled at every node.
* `Reachable.value_le_component`: values are never larger than what the analysis produces.
* `Reachable.value_le_of_closed`: values lie below every assignment that is closed under the
  analysis.
-/

namespace FlowFacts

variable {α : Type} [Domain α]

namespace Solver

variable {a : Analysis α} {ctx : FlowContext} {order : Order} {config : SolverConfig}
  {st st' : SolverState α} {n : Nat} {e : Edge}

/-! ## Settled nodes -/

/-- The analysis succeeds at a node, and what it produces lies below the values of the outgoing
    edges. -/
def SettledAt (a : Analysis α) (ctx : FlowContext) (st : SolverState α) (n : Nat) : Prop :=
  ∃ produced, produce a ctx n (st.input ctx.graph n) = .ok produced ∧
    ∀ o ∈ (ctx.graph.outgoing n).zip produced, Domain.LE o.2 (st.value o.1)

variable [DecidableEq α]

/-- What is known in front of a node changes only if the node is listed. -/
theorem Step.input_eq (hg : ctx.graph.WellFormed) (hsize : st.values.size = ctx.graph.edgeCount)
    (h : Step a ctx order st st') (hn : n ∉ st'.pending) :
    st'.input ctx.graph n = st.input ctx.graph n := by
  unfold SolverState.input
  congr 1
  refine List.map_congr_left fun e he => ?_
  obtain ⟨hedge, htarget⟩ := FlowGraph.mem_incoming.1 he
  by_contra hne
  exact hn (htarget ▸ h.pending_of_value_ne hg hsize hedge hne)

variable [LawfulDomain α]

/-- A visit settles its node, unless it lists the node again, and unsettles only nodes that it
    lists. -/
theorem Step.settledAt (hg : ctx.graph.WellFormed) (hsize : st.values.size = ctx.graph.edgeCount)
    (h : Step a ctx order st st') (hold : n ∉ st.pending → SettledAt a ctx st n)
    (hn : n ∉ st'.pending) : SettledAt a ctx st' n := by
  have hinput := h.input_eq hg hsize hn
  have hgrow := h.le_value hg hsize
  obtain ⟨node, rest, produced, hpending, hproduce, rfl⟩ := h.inv
  by_cases hnode : n = node
  · subst hnode
    refine ⟨produced, by rwa [hinput], fun o ho => ?_⟩
    exact ((SolverState.deliver_le_iff (offers_lt hg hsize)).1 (Domain.le_refl _)).2 o ho rfl
  · have hrest : n ∉ rest := fun hrest => hn (SolverState.pending_subset_offerAll hrest)
    obtain ⟨old, hsettled, hle⟩ := hold (by simp [hpending, hnode, hrest])
    exact ⟨old, by rwa [hinput], fun o ho => Domain.le_trans (hle o ho) (hgrow o.1)⟩

/-- In every reachable state, nodes that are not listed are settled. -/
theorem Reachable.settledAt (hg : ctx.graph.WellFormed) (h : Reachable a ctx config st)
    (hn : n ∈ ctx.graph.nodes) (hpending : n ∉ st.pending) : SettledAt a ctx st n := by
  induction h with
  | start => exact absurd (Order.mem_start.2 hn) hpending
  | step hreach hstep ih => exact hstep.settledAt hg hreach.size_eq ih hpending

end Solver

/-! ## Settled solutions -/

/-- A further visit of the node would leave everything as it is: the analysis succeeds on what is
    known in front of the node, with a value for each outgoing edge, and joining these values into
    the edges changes none of them. -/
def Solution.SettledAt (s : Solution α) (a : Analysis α) (f : Function) (n : Nat) : Prop :=
  ∃ inst produced, s.graph.instruction? f n = some inst ∧
    a.transfer ⟨f, s.graph⟩ inst n (s.input n) (s.graph.outgoing n) = .ok produced ∧
    produced.length = (s.graph.outgoing n).length ∧
    ∀ o ∈ (s.graph.outgoing n).zip produced, Domain.join (s.value o.1) o.2 = s.value o.1

section Settled

variable [DecidableEq α] {a : Analysis α} {f : Function} {config : SolverConfig} {s : Solution α}

theorem Solution.SettledAt.isStableAt {n : Nat} (h : s.SettledAt a f n) :
    s.isStableAt a f n = .ok true := by
  obtain ⟨inst, produced, hinst, htransfer, -, hjoin⟩ := h
  unfold Solution.isStableAt
  simp only [FlowContext.instruction?, hinst, htransfer]
  congr 1
  rw [List.all_eq_true]
  exact fun o ho => decide_eq_true (hjoin o ho)

theorem Solution.areStable_of_settledAt {nodes : List Nat}
    (h : ∀ n ∈ nodes, s.SettledAt a f n) : s.areStable a f nodes = .ok true := by
  induction nodes with
  | nil => rfl
  | cons n rest ih =>
    rw [List.forall_mem_cons] at h
    rw [Solution.areStable, h.1.isStableAt]
    exact ih h.2

theorem solve_graph (h : solve a f config = .ok s) :
    s.graph = FlowGraph.build f a.direction ∧ s.values.size = s.graph.edgeCount := by
  obtain ⟨st, hreach, -, rfl⟩ := solve_eq_ok h
  exact ⟨rfl, hreach.size_eq⟩

variable [LawfulDomain α]

/-- A run ends with every node settled. -/
theorem solve_settledAt (h : solve a f config = .ok s) {n : Nat} (hn : n ∈ s.graph.nodes) :
    s.SettledAt a f n := by
  obtain ⟨st, hreach, hpending, rfl⟩ := solve_eq_ok h
  obtain ⟨produced, hproduce, hle⟩ :=
    hreach.settledAt (a.wellFormed_context f) hn (by simp [hpending])
  obtain ⟨inst, hinst, htransfer, hlength⟩ := Solver.produce_eq_ok_iff.1 hproduce
  exact ⟨inst, produced, hinst, htransfer, hlength,
    fun o ho => Domain.join_eq_left_iff.2 (hle o ho)⟩

/-- Whatever the analysis does, and in whichever order nodes are visited, an answer of the solver
    is a fixpoint on the graph of the function: at every node the analysis succeeds on the stored
    values and changes none of them, and the checker confirms it. -/
theorem solve_isFixpoint (a : Analysis α) (f : Function) (config : SolverConfig) {s : Solution α}
    (h : solve a f config = .ok s) :
    s.graph = FlowGraph.build f a.direction ∧ (∀ n ∈ s.graph.nodes, s.SettledAt a f n) ∧
      s.isFixpoint a f = .ok true := by
  have hsettled : ∀ n ∈ s.graph.nodes, s.SettledAt a f n := fun _ hn => solve_settledAt h hn
  exact ⟨(solve_graph h).1, hsettled, Solution.areStable_of_settledAt hsettled⟩

end Settled

/-- A function that enters a loop made of a single jump, so one edge leads from a node to itself. -/
def spin : Function :=
  ((Builder.fresh "spin").run
    [.block "entry", .append .alloca [], .jump (.ofNat 1), .block "loop",
      .jump (.ofNat 1)]).function.linked

/-- Marks a node only if nothing in front of it is marked, so larger inputs give smaller values. -/
def firstMark : Analysis IndexSet where
  name := "first-mark"
  direction := .forward
  initial := .empty
  height g := g.insts.size
  transfer _ _ node marked outs :=
    .ok (List.replicate outs.length (if marked = .empty then .singleton node else .empty))

/-- Without monotonicity the answer depends on the order of visits, but each answer is a
    fixpoint. -/
theorem solve_firstMark_spin :
    ∃ s t, solve firstMark spin { order := .fifo } = .ok s ∧
      solve firstMark spin { order := .lifo } = .ok t ∧ s.values ≠ t.values ∧
      (s.graph = FlowGraph.build spin .forward ∧
        (∀ n ∈ s.graph.nodes, s.SettledAt firstMark spin n) ∧
        s.isFixpoint firstMark spin = .ok true) ∧
      t.graph = FlowGraph.build spin .forward ∧
        (∀ n ∈ t.graph.nodes, t.SettledAt firstMark spin n) ∧
        t.isFixpoint firstMark spin = .ok true := by
  obtain ⟨s, hs⟩ : ∃ s, solve firstMark spin { order := .fifo } = .ok s :=
    exists_ok_of_toBool (by decide +kernel)
  obtain ⟨t, ht⟩ : ∃ t, solve firstMark spin { order := .lifo } = .ok t :=
    exists_ok_of_toBool (by decide +kernel)
  have hvalues : (solve firstMark spin { order := .fifo }).toOption.map Solution.values ≠
      (solve firstMark spin { order := .lifo }).toOption.map Solution.values := by
    decide +kernel
  rw [hs, ht] at hvalues
  exact ⟨s, t, hs, ht, fun heq => hvalues (congrArg some heq), solve_isFixpoint _ _ _ hs,
    solve_isFixpoint _ _ _ ht⟩

/-! ## Runs of monotone analyses -/

/-- An assignment of values to edges that contains the initial value and, with the values in front
    of a node, also what the analysis produces from them. -/
structure Analysis.IsClosed (a : Analysis α) (ctx : FlowContext) (T : Nat → α) : Prop where
  entry : ∀ {id : Nat}, ctx.graph.entryEdge = some id → Domain.LE a.initial (T id)
  component : ∀ {n : Nat} {e : Edge}, 1 ≤ n → e ∈ ctx.graph.outgoing n →
    ∃ v, a.component ctx n (Domain.joinAll ((ctx.graph.incoming n).map fun d => T d.id)) e =
      some v ∧ Domain.LE v (T e.id)

/-- The entry edge holds the initial value, every other edge exactly what the analysis produces for
    it from the join of the values in front of its source, and every closed assignment lies
    above. -/
structure Solution.IsLeastFixpoint (s : Solution α) (a : Analysis α) (f : Function) : Prop where
  size_eq : s.values.size = s.graph.edgeCount
  entry : ∀ {id : Nat}, s.graph.entryEdge = some id → s.values[id]? = some a.initial
  component : ∀ {n : Nat} {e : Edge}, 1 ≤ n → e ∈ s.graph.outgoing n →
    a.component ⟨f, s.graph⟩ n (s.input n) e = some (s.value e)
  le_of_closed : ∀ {T : Nat → α}, a.IsClosed ⟨f, s.graph⟩ T →
    ∀ e ∈ s.graph.edges, Domain.LE (s.value e) (T e.id)

namespace Solver

variable {a : Analysis α} {ctx : FlowContext} {config : SolverConfig} {st : SolverState α}
  {e : Edge} {x v : α}

/-- At the start the entry edge holds the initial value and every other edge the least one. -/
theorem value_start (hg : ctx.graph.WellFormed) (he : e ∈ ctx.graph.edges) :
    (SolverState.start a ctx.graph config).value e =
      if e.source = FlowGraph.virtualEntry then a.initial else Domain.bottom := by
  simp only [← hg.entry_iff he]
  rw [SolverState.value, Array.getD_eq_getD_getElem?, SolverState.getElem?_start,
    if_pos (hg.id_lt he), Option.getD_some]

variable [DecidableEq α] [LawfulDomain α]

/-- No visit changes the entry edge. -/
theorem Reachable.value_entry (hg : ctx.graph.WellFormed) (h : Reachable a ctx config st)
    (he : e ∈ ctx.graph.edges) (hsource : e.source = FlowGraph.virtualEntry) :
    st.value e = a.initial := by
  induction h with
  | start => rw [value_start hg he, if_pos hsource]
  | @step st st' hreach hstep ih =>
    have hnone : ∀ x, a.component ctx e.source x e = none := by
      intro x
      rw [hsource]
      rfl
    have hle : Domain.LE (st'.value e) (st.value e) :=
      hstep.value_le hg hreach.size_eq he (Domain.le_refl _) fun v hv => by simp [hnone] at hv
    rw [← ih]
    exact Domain.le_antisymm hle (hstep.le_value hg hreach.size_eq e)

/-- A monotone analysis produces at least the stored value from what is known in front of a node,
    and from anything larger. -/
theorem Reachable.value_le_component (hmono : a.Monotone) (hg : ctx.graph.WellFormed)
    (h : Reachable a ctx config st) (he : e ∈ ctx.graph.edges)
    (hsource : e.source ≠ FlowGraph.virtualEntry)
    (hx : Domain.LE (st.input ctx.graph e.source) x)
    (hv : a.component ctx e.source x e = some v) : Domain.LE (st.value e) v := by
  induction h with
  | start =>
    rw [value_start hg he, if_neg hsource]
    exact Domain.bottom_le v
  | step hreach hstep ih =>
    have hsize := hreach.size_eq
    have hx' := Domain.le_trans (hstep.le_input hg hsize e.source) hx
    exact hstep.value_le hg hsize he (ih hx') fun u hu => hmono.component_le hx' hu hv

/-- Values lie below every assignment that is closed under a monotone analysis. -/
theorem Reachable.value_le_of_closed (hmono : a.Monotone) (hg : ctx.graph.WellFormed)
    (h : Reachable a ctx config st) {T : Nat → α} (hclosed : a.IsClosed ctx T)
    (he : e ∈ ctx.graph.edges) : Domain.LE (st.value e) (T e.id) := by
  induction h generalizing e with
  | start =>
    rw [value_start hg he]
    split_ifs with hsource
    · exact hclosed.entry ((hg.entry_iff he).2 hsource)
    · exact Domain.bottom_le _
  | @step st st' hreach hstep ih =>
    refine hstep.value_le hg hreach.size_eq he (ih he) fun u hu => ?_
    obtain ⟨inst, -, hinst, -⟩ := Analysis.component_eq_some hu
    have hnode := FlowGraph.mem_nodes.1 (FlowGraph.mem_nodes_of_instruction? hinst)
    obtain ⟨v, hv, hle⟩ := hclosed.component hnode.1 (FlowGraph.mem_outgoing.2 ⟨he, rfl⟩)
    have hinput : Domain.LE (st.input ctx.graph e.source)
        (Domain.joinAll ((ctx.graph.incoming e.source).map fun d => T d.id)) :=
      Domain.joinAll_map_mono fun d hd => ih (FlowGraph.mem_incoming.1 hd).1
    exact Domain.le_trans (hmono.component_le hinput hu hv) hle

end Solver

/-! ## The least solution -/

section Least

variable [DecidableEq α] {a : Analysis α} {f : Function} {config : SolverConfig} {s : Solution α}

theorem solve_wellFormed (h : solve a f config = .ok s) : s.graph.WellFormed :=
  (solve_graph h).1 ▸ a.wellFormed_context f

/-- Every edge has a value of its own. -/
theorem solve_getElem?_id (h : solve a f config = .ok s) {e : Edge} (he : e ∈ s.graph.edges) :
    s.values[e.id]? = some (s.value e) := by
  have hlt := (solve_wellFormed h).id_lt he
  rw [← (solve_graph h).2] at hlt
  simp [Solution.value, hlt]

variable [LawfulDomain α]

/-- The entry edge keeps the initial value. -/
theorem solve_getElem?_entry (h : solve a f config = .ok s) {id : Nat}
    (hid : s.graph.entryEdge = some id) : s.values[id]? = some a.initial := by
  have hg := solve_wellFormed h
  obtain ⟨e, he⟩ : ∃ e, s.graph.edges[id]? = some e :=
    ⟨_, Array.getElem?_eq_getElem (hg.entry_lt hid)⟩
  obtain rfl := hg.id_eq he
  have hedge := Array.mem_of_getElem? he
  rw [solve_getElem?_id h hedge]
  have hsource := (hg.entry_iff hedge).1 hid
  obtain ⟨st, hreach, -, rfl⟩ := solve_eq_ok h
  exact congrArg some (hreach.value_entry hg hedge hsource)

/-- An edge holds exactly what a monotone analysis produces for it. -/
theorem solve_component (hmono : a.Monotone) (h : solve a f config = .ok s) {n : Nat} (hn : 1 ≤ n)
    {e : Edge} (he : e ∈ s.graph.outgoing n) :
    a.component ⟨f, s.graph⟩ n (s.input n) e = some (s.value e) := by
  obtain ⟨st, hreach, hpending, rfl⟩ := solve_eq_ok h
  have hg := a.wellFormed_context f
  obtain ⟨hedge, rfl⟩ := FlowGraph.mem_outgoing.1 he
  have hsource : e.source ≠ FlowGraph.virtualEntry := Nat.ne_of_gt hn
  have hnode := (hg.source_mem hedge).resolve_left hsource
  obtain ⟨produced, hproduce, hle⟩ := hreach.settledAt hg hnode (by simp [hpending])
  obtain ⟨-, -, -, hlen⟩ := Solver.produce_eq_ok_iff.1 hproduce
  have hplace := List.idxOf_lt_length_iff.2 he
  rw [SolverState.graph_solution, ← hlen] at hplace
  have hmem := (mem_zip_iff (hg.nodup_outgoing e.source)).2
    ⟨he, List.getElem?_eq_getElem hplace⟩
  have hcomponent := Solver.component_eq_of_produce hg hproduce hmem
  have hup := hreach.value_le_component hmono hg hedge hsource (Domain.le_refl _) hcomponent
  rw [SolverState.input_solution, SolverState.value_solution,
    Domain.le_antisymm hup (hle _ hmem)]
  exact hcomponent

/-- The answer for a monotone analysis lies below every assignment of values that is closed under
    the analysis. -/
theorem solve_le_of_closed (hmono : a.Monotone) (h : solve a f config = .ok s) {T : Nat → α}
    (hclosed : a.IsClosed ⟨f, s.graph⟩ T) {e : Edge} (he : e ∈ s.graph.edges) :
    Domain.LE (s.value e) (T e.id) := by
  obtain ⟨st, hreach, -, rfl⟩ := solve_eq_ok h
  exact hreach.value_le_of_closed hmono (a.wellFormed_context f) hclosed he

/-- The answer for a monotone analysis, in either order, is the least fixpoint of the analysis on
    the graph of the function. -/
theorem solve_isLeastFixpoint (a : Analysis α) (hmono : a.Monotone) (f : Function)
    (config : SolverConfig) {s : Solution α} (h : solve a f config = .ok s) :
    s.graph = FlowGraph.build f a.direction ∧ s.IsLeastFixpoint a f := by
  obtain ⟨hgraph, hsize⟩ := solve_graph h
  refine ⟨hgraph, hsize, fun hid => solve_getElem?_entry h hid, ?_, ?_⟩
  · intro n e hn he
    exact solve_component hmono h hn he
  · intro T hclosed e he
    exact solve_le_of_closed hmono h hclosed he

end Least

/-- The definitions that reach each edge of `spin` are the least fixpoint. -/
theorem solve_reaching_spin :
    Reaching.analysis.Monotone ∧ ∃ s, solve Reaching.analysis spin { order := .lifo } = .ok s ∧
      s.values.map SortedSet.items = #[[1], [1], [1], []] ∧
      s.graph = FlowGraph.build spin .forward ∧ s.IsLeastFixpoint Reaching.analysis spin := by
  have hmono := Reaching.regular.monotone
  obtain ⟨s, hs⟩ : ∃ s, solve Reaching.analysis spin { order := .lifo } = .ok s :=
    exists_ok_of_toBool (by decide +kernel)
  have hvalues : (solve Reaching.analysis spin { order := .lifo }).toOption.map
      (fun s => s.values.map SortedSet.items) = some #[[1], [1], [1], []] := by
    decide +kernel
  rw [hs] at hvalues
  exact ⟨hmono, s, hs, Option.some.inj hvalues, solve_isLeastFixpoint _ hmono _ _ hs⟩

end FlowFacts
