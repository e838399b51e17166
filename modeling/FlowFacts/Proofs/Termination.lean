import FlowFacts.Proofs.AnalysisLaws
import Mathlib.Algebra.Order.BigOperators.Group.Finset
import Mathlib.Data.Finset.Prod

/-!
# Runs come to an end

Every change of an edge adds a fact to its value. If the values that an analysis can reach are
determined by facts from a finite set, no edge changes more often than there are facts; and since
each visit beyond the first one of a node answers to a change, this bounds the number of visits.

Main results:

* `Reachable.updates_le`: changes are bounded by the number of edges times the height.
* `Analysis.settlesWithin_of_finiteFacts`: an analysis with finitely many facts settles.
-/

namespace FlowFacts

variable {α β : Type}

/-! ## Finitely many facts -/

open Classical in
/-- How many of the facts a value contains. -/
noncomputable def factCount (Knows : α → β → Prop) (facts : Finset β) (x : α) : Nat :=
  (facts.filter (Knows x)).card

theorem factCount_le {Knows : α → β → Prop} {facts : Finset β} (x : α) :
    factCount Knows facts x ≤ facts.card := by
  classical exact Finset.card_filter_le facts _

variable [Domain α]

/-- The values that an analysis can reach are determined by which facts of a finite set they
    contain; larger values contain more of them. -/
structure Analysis.FiniteFacts (a : Analysis α) (ctx : FlowContext) (Holds : α → Prop)
    (Knows : α → β → Prop) (facts : Finset β) : Prop extends a.Keeps ctx Holds where
  knows_mono : ∀ {x y : α}, Domain.LE x y → ∀ b, Knows x b → Knows y b
  eq_of_knows_iff : ∀ {x y : α}, Holds x → Holds y → (∀ b ∈ facts, Knows x b ↔ Knows y b) → x = y
  card_le : facts.card ≤ a.height ctx.graph

section Bounds

variable {a : Analysis α} {ctx : FlowContext} {Holds : α → Prop} {Knows : α → β → Prop}
  {facts : Finset β}

theorem Analysis.Keeps.joinAll (h : a.Keeps ctx Holds) {xs : List α} (hxs : ∀ x ∈ xs, Holds x) :
    Holds (Domain.joinAll xs) :=
  List.foldlRecOn xs Domain.join h.bottom fun _ hacc x hx => h.join hacc (hxs x hx)

theorem Analysis.FiniteFacts.factCount_lt (h : a.FiniteFacts ctx Holds Knows facts) {x y : α}
    (hx : Holds x) (hy : Holds y) (hle : Domain.LE x y) (hne : x ≠ y) :
    factCount Knows facts x < factCount Knows facts y := by
  classical
  refine Finset.card_lt_card ⟨?_, fun hback => hne (h.eq_of_knows_iff hx hy fun b hb => ?_)⟩
  · exact Finset.monotone_filter_right facts fun b _ => h.knows_mono hle b
  · constructor
    · exact h.knows_mono hle b
    · intro hyb
      exact (Finset.mem_filter.1 (hback (Finset.mem_filter.2 ⟨hb, hyb⟩))).2

/-! ## Changes -/

/-- The values of a state are among those that the analysis can reach, and every change so far
    left a fact behind. -/
structure SolverState.Measured (Holds : α → Prop) (Knows : α → β → Prop) (facts : Finset β)
    (edges : Nat) (st : SolverState α) : Prop where
  size_eq : st.values.size = edges
  holds : ∀ i, Holds (st.valueAt i)
  updates_le : st.stats.updates ≤ ∑ i ∈ Finset.range edges, factCount Knows facts (st.valueAt i)

theorem SolverState.valueAt_start (a : Analysis α) (g : FlowGraph) (config : SolverConfig)
    (i : Nat) :
    (SolverState.start a g config).valueAt i = a.initial ∨
      (SolverState.start a g config).valueAt i = Domain.bottom := by
  rw [SolverState.valueAt, Array.getD_eq_getD_getElem?, SolverState.getElem?_start]
  split_ifs <;> simp

variable [DecidableEq α] [LawfulDomain α] {order : Order} {config : SolverConfig}
  {st st' : SolverState α} {edges : Nat}

theorem SolverState.Measured.offer (ha : a.FiniteFacts ctx Holds Knows facts)
    (h : st.Measured Holds Knows facts edges) {e : Edge} (he : e.id < edges) {v : α}
    (hv : Holds v) : (st.offer order e v).Measured Holds Knows facts edges := by
  rw [offer_eq]
  split_ifs with hjoin
  · exact h
  rw [value_eq_valueAt] at hjoin ⊢
  have hlt : e.id < st.values.size := h.size_eq ▸ he
  have hjoined := ha.join (h.holds e.id) hv
  have hgrow : factCount Knows facts (st.valueAt e.id) <
      factCount Knows facts (Domain.join (st.valueAt e.id) v) :=
    ha.factCount_lt (h.holds e.id) hjoined (Domain.le_join_left _ v) (Ne.symm hjoin)
  refine ⟨Array.size_setIfInBounds.trans h.size_eq, fun i => ?_, ?_⟩
  · rw [valueAt_store hlt]
    split_ifs
    · exact hjoined
    · exact h.holds i
  · -- One edge has a new fact, and no other edge lost one.
    refine Nat.succ_le_of_lt (Nat.lt_of_le_of_lt h.updates_le ?_)
    refine Finset.sum_lt_sum (fun i _ => ?_) ⟨e.id, Finset.mem_range.2 he, ?_⟩
    · rw [valueAt_store hlt]
      split_ifs with hi
      · subst hi
        exact hgrow.le
      · exact le_rfl
    · rwa [valueAt_store hlt, if_pos rfl]

namespace Solver

theorem Step.measured (ha : a.FiniteFacts ctx Holds Knows facts) (hg : ctx.graph.WellFormed)
    (h : Step a ctx order st st') (hst : st.Measured Holds Knows facts ctx.graph.edgeCount) :
    st'.Measured Holds Knows facts ctx.graph.edgeCount := by
  obtain ⟨node, rest, produced, -, hproduce, rfl⟩ := h.inv
  obtain ⟨inst, hinst, htransfer, -⟩ := produce_eq_ok_iff.1 hproduce
  have hinput : Holds (st.input ctx.graph node) := by
    refine ha.joinAll fun x hx => ?_
    obtain ⟨e, -, rfl⟩ := List.mem_map.1 hx
    exact hst.holds e.id
  have hproduced := ha.transfer hinst hinput htransfer
  refine SolverState.offerAll_induction ⟨hst.size_eq, hst.holds, hst.updates_le⟩
    fun st o ho hst => hst.offer ha ?_ (hproduced o.2 (List.of_mem_zip ho).2)
  exact hg.id_lt (mem_edges_of_offer ho).1

theorem Reachable.measured (ha : a.FiniteFacts ctx Holds Knows facts) (hg : ctx.graph.WellFormed)
    (h : Reachable a ctx config st) : st.Measured Holds Knows facts ctx.graph.edgeCount := by
  induction h with
  | start =>
    refine ⟨size_start ctx.graph config, fun i => ?_, Nat.zero_le _⟩
    rcases SolverState.valueAt_start a ctx.graph config i with hi | hi
    · exact hi ▸ ha.initial
    · exact hi ▸ ha.bottom
  | step _ hstep ih => exact hstep.measured ha hg ih

/-- Every edge changes at most as often as there are facts. -/
theorem Reachable.updates_le (ha : a.FiniteFacts ctx Holds Knows facts)
    (hg : ctx.graph.WellFormed) (h : Reachable a ctx config st) :
    st.stats.updates ≤ ctx.graph.edgeCount * a.height ctx.graph :=
  calc st.stats.updates
      ≤ ∑ i ∈ Finset.range ctx.graph.edgeCount, factCount Knows facts (st.valueAt i) :=
        (h.measured ha hg).updates_le
    _ ≤ ∑ _i ∈ Finset.range ctx.graph.edgeCount, a.height ctx.graph :=
        Finset.sum_le_sum fun i _ => (factCount_le (st.valueAt i)).trans ha.card_le
    _ = ctx.graph.edgeCount * a.height ctx.graph := by simp

/-- A run takes no more visits than the limit, also counting those that are still to come. -/
theorem Reachable.visits_le (ha : a.FiniteFacts ctx Holds Knows facts)
    (hg : ctx.graph.WellFormed) (h : Reachable a ctx config st) :
    st.stats.visits + st.pending.length ≤ visitLimit a ctx.graph := by
  have hupdates := h.updates_le ha hg
  have hbalance := h.balance
  rw [ctx.graph.length_nodes] at hbalance
  unfold visitLimit
  omega

end Solver

end Bounds

/-! ## Settling -/

/-- Runs of the analysis end on every function, in either order, after as many changes of edges as
    `growths` allows. -/
structure Analysis.SettlesWithin [DecidableEq α] (a : Analysis α) (growths : FlowGraph → Nat) :
    Prop where
  /-- Visits do not go on forever. -/
  no_infinite_run : ∀ (f : Function) (config : SolverConfig),
    ¬ ∃ run : Nat → SolverState α, run 0 = .start a (a.context f).graph config ∧
      ∀ n, Solver.Step a (a.context f) config.order (run n) (run (n + 1))
  /-- The limit on visits never cuts off a run: one that ends is the answer. -/
  solve_of_finished : ∀ (f : Function) (config : SolverConfig) (st : SolverState α),
    Solver.Reachable a (a.context f) config st → st.pending = [] →
      solve a f config = .ok (st.solution f (a.context f).graph)
  /-- There is an answer, unless the analysis fails at an instruction of the function. -/
  malformed_of_error : ∀ (f : Function) (config : SolverConfig) (err : FlowError),
    solve a f config = .error err → ∃ fault, err = .malformed f.name fault
  /-- Each node is visited once, and once more for each change. -/
  visits_eq : ∀ (f : Function) (config : SolverConfig) (s : Solution α),
    solve a f config = .ok s → s.stats.visits = (s.graph.nodeCount - 1) + s.stats.updates
  updates_le : ∀ (f : Function) (config : SolverConfig) (s : Solution α),
    solve a f config = .ok s → s.stats.updates ≤ growths s.graph

section Settling

variable [DecidableEq α] [LawfulDomain α] {a : Analysis α} {f : Function} {config : SolverConfig}
  {Holds : α → Prop} {Knows : α → β → Prop} {facts : Finset β}

theorem Analysis.FiniteFacts.no_infinite_run (ha : a.FiniteFacts (a.context f) Holds Knows facts) :
    ¬ ∃ run : Nat → SolverState α, run 0 = .start a (a.context f).graph config ∧
      ∀ n, Solver.Step a (a.context f) config.order (run n) (run (n + 1)) := by
  rintro ⟨run, hstart, hstep⟩
  have hreach : ∀ n, Solver.Reachable a (a.context f) config (run n) ∧
      (run n).stats.visits = n := by
    intro n
    induction n with
    | zero => exact hstart ▸ ⟨.start, rfl⟩
    | succ n ih => exact ⟨ih.1.step (hstep n), by rw [(hstep n).balance.1, ih.2]⟩
  -- One visit more than the limit is a visit too many.
  obtain ⟨hlast, hvisits⟩ := hreach (Solver.visitLimit a (a.context f).graph + 1)
  have hle := hlast.visits_le ha (a.wellFormed_context f)
  omega

theorem Analysis.FiniteFacts.solve_of_finished
    (ha : a.FiniteFacts (a.context f) Holds Knows facts) {st : SolverState α}
    (h : Solver.Reachable a (a.context f) config st) (hst : st.pending = []) :
    solve a f config = .ok (st.solution f (a.context f).graph) := by
  have hle := h.visits_le ha (a.wellFormed_context f)
  rw [hst, List.length_nil, Nat.add_zero] at hle
  exact solve_of_reachable h hst hle

/-- The solver fails only where a visit fails. -/
theorem Analysis.FiniteFacts.solve_eq_error
    (ha : a.FiniteFacts (a.context f) Holds Knows facts) {err : FlowError}
    (h : solve a f config = .error err) :
    ∃ st node rest fault, Solver.Reachable a (a.context f) config st ∧
      st.pending = node :: rest ∧
      Solver.visit a (a.context f) config.order node { st with pending := rest } = .error fault ∧
      err = .malformed f.name fault := by
  refine (FlowFacts.solve_eq_error h).resolve_left ?_
  rintro ⟨st, hreach, hpending, hvisits⟩
  have hle := hreach.visits_le ha (a.wellFormed_context f)
  have hpos := List.length_pos_iff.2 hpending
  omega

/-- An analysis with finitely many facts settles. -/
theorem Analysis.settlesWithin_of_finiteFacts {Holds : FlowContext → α → Prop}
    {facts : FlowContext → Finset β} {growths : FlowGraph → Nat}
    (ha : ∀ ctx, a.FiniteFacts ctx (Holds ctx) Knows (facts ctx))
    (hgrowths : ∀ g, g.edgeCount * a.height g ≤ growths g) : a.SettlesWithin growths where
  no_infinite_run f config := (ha _).no_infinite_run
  solve_of_finished f config st := (ha _).solve_of_finished
  malformed_of_error f config err h := by
    obtain ⟨-, -, -, fault, -, -, -, herr⟩ := (ha _).solve_eq_error h
    exact ⟨fault, herr⟩
  visits_eq f config s h := by
    obtain ⟨st, hreach, hpending, rfl⟩ := solve_eq_ok h
    have hbalance := hreach.balance
    rw [hpending, List.length_nil, Nat.add_zero, FlowGraph.length_nodes] at hbalance
    exact hbalance
  updates_le f config s h := by
    obtain ⟨st, hreach, -, rfl⟩ := solve_eq_ok h
    have hg := a.wellFormed_context f
    exact (hreach.updates_le (ha _) hg).trans (hgrowths _)

end Settling

/-! ## The facts of the three analyses -/

/-- An analysis of index sets that keeps to the nodes has a fact for each node. -/
theorem IndexSet.finiteFacts {a : Analysis IndexSet} {ctx : FlowContext}
    (hkeeps : a.Keeps ctx fun s => ∀ i ∈ s, i ∈ ctx.graph.nodes)
    (hheight : a.height ctx.graph = ctx.graph.insts.size) :
    a.FiniteFacts ctx (fun s => ∀ i ∈ s, i ∈ ctx.graph.nodes) (fun s i => i ∈ s)
      ctx.graph.nodes.toFinset where
  toKeeps := hkeeps
  knows_mono h := le_iff.1 h
  eq_of_knows_iff hs ht h := by
    refine SortedSet.ext_mem fun i => ⟨fun hi => ?_, fun hi => ?_⟩
    · exact (h i (List.mem_toFinset.2 (hs i hi))).1 hi
    · exact (h i (List.mem_toFinset.2 (ht i hi))).2 hi
  card_le := by
    rw [hheight]
    exact (List.toFinset_card_le _).trans_eq ctx.graph.length_nodes

namespace PointsTo

/-- The pairs of a location and a target that the nodes of a graph give rise to. -/
def pairs (g : FlowGraph) : Finset (Location × Location) :=
  (g.nodes.map Location.value ++ g.nodes.map Location.memory).toFinset ×ˢ
    (g.nodes.map Location.memory).toFinset

theorem mem_pairs {g : FlowGraph} {l t : Location} :
    (l, t) ∈ pairs g ↔
      l.Within (· ∈ g.nodes) (· ∈ g.nodes) ∧ ∃ i ∈ g.nodes, t = .memory i := by
  unfold pairs
  rw [Finset.mem_product]
  cases l <;> simp [Location.Within, eq_comm]

theorem card_pairs_le (g : FlowGraph) : (pairs g).card ≤ 2 * g.insts.size * g.insts.size := by
  have hnodes := g.length_nodes
  unfold pairs
  rw [Finset.card_product]
  refine Nat.mul_le_mul ((List.toFinset_card_le _).trans ?_) ((List.toFinset_card_le _).trans ?_)
  · rw [List.length_append, List.length_map, List.length_map]
    omega
  · rw [List.length_map]
    omega

variable {A V : Nat → Prop} {m n : PointsTo} {g : FlowGraph}

/-- What a map says is determined by its targets, since no location is present without one. -/
theorem Shaped.le_of_pairs (hm : m.Shaped A V) (hA : ∀ i, A i → i ∈ g.nodes)
    (hV : ∀ i, V i → i ∈ g.nodes)
    (h : ∀ b ∈ pairs g, m.Says b.1 (some b.2) → n.Says b.1 (some b.2)) : Domain.LE m n := by
  have htargets : ∀ l t, m.Says l (some t) → n.Says l (some t) := by
    intro l t hlt
    refine h (l, t) (mem_pairs.2 ⟨?_, ?_⟩) hlt
    · have hl := hm.within hlt
      cases l with
      | value i => exact hV i hl
      | memory i => exact hA i hl
    · obtain ⟨i, hi, ht⟩ := hm.target hlt
      exact ⟨i, hA i hi, ht⟩
  refine le_iff.2 fun l x hx => ?_
  cases x with
  | some t => exact htargets l t hx
  | none =>
    obtain ⟨t, ht⟩ := hm.inhabited hx
    exact (htargets l t ht).present

end PointsTo

theorem FlowContext.Allocates.mem_nodes {ctx : FlowContext} {i : Nat} (h : ctx.Allocates i) :
    i ∈ ctx.graph.nodes := by
  obtain ⟨inst, hinst, -⟩ := h
  exact FlowGraph.mem_nodes_of_instruction? hinst

theorem Pointer.finiteFacts (ctx : FlowContext) :
    Pointer.analysis.FiniteFacts ctx (PointsTo.Shaped ctx.Allocates (· ∈ ctx.graph.nodes))
      (fun m b => m.Says b.1 (some b.2)) (PointsTo.pairs ctx.graph) where
  toKeeps := keeps_shaped ctx
  knows_mono h b := PointsTo.le_iff.1 h b.1 (some b.2)
  eq_of_knows_iff hm hn h :=
    Domain.le_antisymm
      (hm.le_of_pairs (fun _ hi => hi.mem_nodes) (fun _ => id) fun b hb => (h b hb).1)
      (hn.le_of_pairs (fun _ hi => hi.mem_nodes) (fun _ => id) fun b hb => (h b hb).2)
  card_le := PointsTo.card_pairs_le ctx.graph

/-- All three analyses settle on every function and in either order: for `N` nodes and `E` edges,
    index sets grow at most `E * N` times and points-to maps at most `E * 2 * N * N` times. -/
theorem analyses_settle :
    Liveness.analysis.SettlesWithin (fun g => g.edgeCount * (g.nodeCount - 1)) ∧
    Reaching.analysis.SettlesWithin (fun g => g.edgeCount * (g.nodeCount - 1)) ∧
    Pointer.analysis.SettlesWithin
      (fun g => g.edgeCount * 2 * (g.nodeCount - 1) * (g.nodeCount - 1)) := by
  refine ⟨?_, ?_, ?_⟩
  · refine Analysis.settlesWithin_of_finiteFacts
      (fun ctx => IndexSet.finiteFacts (Liveness.keeps_nodes ctx) rfl) fun g => ?_
    exact le_rfl
  · refine Analysis.settlesWithin_of_finiteFacts
      (fun ctx => IndexSet.finiteFacts (Reaching.keeps_nodes ctx) rfl) fun g => ?_
    exact le_rfl
  · refine Analysis.settlesWithin_of_finiteFacts Pointer.finiteFacts fun g => ?_
    show g.edgeCount * (2 * g.insts.size * g.insts.size) ≤
      g.edgeCount * 2 * g.insts.size * g.insts.size
    rw [Nat.mul_assoc 2, Nat.mul_assoc (g.edgeCount * 2), Nat.mul_assoc]

end FlowFacts
