import FlowFacts.Proofs.Fixpoint
import FlowFacts.Proofs.Termination
import FlowFacts.Report.Basic

/-!
# The order of visits does not matter

A regular analysis fails at a node whatever is known in front of it, and every run that does not
fail visits every node. So a run fails in one order if it fails in another one, though it may
report a different node. If neither run fails, both answers are the least fixpoint.

Main results:

* `solve_ok_iff`: a run succeeds if and only if the analysis succeeds at every node.
* `solve_values_eq`: two answers for one function hold the same values.
-/

namespace FlowFacts

/-! ## Results -/

/-- Both computations succeed or both fail, possibly for different reasons; if they succeed, their
    values have the same `key`. -/
def SameResult {ε γ δ : Type} (key : γ → δ) (x y : Except ε γ) : Prop :=
  ((∃ u, x = .ok u) ↔ ∃ v, y = .ok v) ∧ ∀ u v, x = .ok u → y = .ok v → key u = key v

theorem SameResult.map {ε γ δ ζ η : Type} {key : γ → δ} {x y : Except ε γ}
    (h : SameResult key x y) {g : γ → ζ} {key' : ζ → η}
    (hkey : ∀ u v, key u = key v → key' (g u) = key' (g v)) :
    SameResult key' (x.map g) (y.map g) := by
  have hok : ∀ z : Except ε γ, (∃ w, z.map g = .ok w) ↔ ∃ u, z = .ok u := by
    intro z
    cases z <;> simp [Except.map]
  refine ⟨by rw [hok, hok, h.1], fun u v hu hv => ?_⟩
  obtain ⟨u, hx, rfl⟩ := map_eq_ok hu
  obtain ⟨v, hy, rfl⟩ := map_eq_ok hv
  exact hkey u v (h.2 u v hx hy)

/-- The answer of the solver, apart from the work that it took. -/
def Solution.answer {α : Type} (s : Solution α) : FlowGraph × Array α := (s.graph, s.values)

variable {α β : Type} [Domain α] {s₁ s₂ : Solution α}

/-- A report lists its facts by the answer alone. -/
theorem facts_ofSolution_eq [Rendered α] (kind : AnalysisKind) (f : Function)
    (h : s₁.answer = s₂.answer) :
    (Report.ofSolution kind f s₁).facts = (Report.ofSolution kind f s₂).facts := by
  obtain ⟨hgraph, hvalues⟩ := Prod.ext_iff.1 h
  unfold Report.ofSolution Solution.facts Solution.value
  dsimp only [Solution.answer] at hgraph hvalues
  rw [hgraph, hvalues]

section Answers

variable [DecidableEq α] [LawfulDomain α] {a : Analysis α} {f : Function}
  {config c₁ c₂ : SolverConfig}

/-! ## Success -/

/-- A run succeeds if and only if the analysis succeeds at every node, on the least input. -/
theorem solve_ok_iff (hregular : a.Regular) {Holds : α → Prop} {Knows : α → β → Prop}
    {facts : Finset β}
    (hfacts : a.FiniteFacts (a.context f) Holds Knows facts) :
    (∃ s, solve a f config = .ok s) ↔
      ∀ n ∈ (a.context f).graph.nodes,
        ∃ ys, Solver.produce a (a.context f) n Domain.bottom = .ok ys := by
  have hg := a.wellFormed_context f
  constructor
  · rintro ⟨s, hs⟩ n hn
    obtain ⟨st, hreach, hpending, -⟩ := solve_eq_ok hs
    obtain ⟨produced, hproduce, -⟩ := hreach.settledAt hg hn (by simp [hpending])
    exact hregular.produce_ok hproduce Domain.bottom
  · intro hsucceeds
    cases hsolve : solve a f config with
    | ok s => exact ⟨s, rfl⟩
    | error err =>
      -- The visit that failed could not have failed.
      obtain ⟨st, node, rest, fault, hreach, hpending, hvisit, -⟩ := hfacts.solve_eq_error hsolve
      have hnode := hreach.pending_subset hg (hpending ▸ List.mem_cons_self)
      obtain ⟨ys, hys⟩ := hsucceeds node hnode
      obtain ⟨produced, hproduced⟩ := hregular.produce_ok hys (st.input _ node)
      rw [Solver.visit_eq_ok_iff.2 ⟨produced, hproduced, rfl⟩] at hvisit
      cases hvisit

/-! ## Values -/

/-- One answer lies below another one, since each is closed under the analysis. -/
theorem solve_value_le (hmono : a.Monotone) (h₁ : solve a f c₁ = .ok s₁)
    (h₂ : solve a f c₂ = .ok s₂) {e : Edge} (he : e ∈ s₁.graph.edges) :
    Domain.LE (s₁.value e) (s₂.value e) := by
  have hgraph : s₁.graph = s₂.graph := (solve_graph h₁).1.trans (solve_graph h₂).1.symm
  refine solve_le_of_closed hmono h₁ (T := fun i => s₂.values.getD i Domain.bottom) ⟨?_, ?_⟩ he
  · intro id hid
    rw [Array.getD_eq_getD_getElem?, solve_getElem?_entry h₂ (hgraph ▸ hid)]
    exact Domain.le_refl _
  · intro n d hn hd
    rw [hgraph] at hd ⊢
    exact ⟨s₂.value d, solve_component hmono h₂ hn hd, Domain.le_refl _⟩

/-- Two answers for one function hold the same values. -/
theorem solve_values_eq (hmono : a.Monotone) (h₁ : solve a f c₁ = .ok s₁)
    (h₂ : solve a f c₂ = .ok s₂) : s₁.graph = s₂.graph ∧ s₁.values = s₂.values := by
  obtain ⟨hgraph₁, hsize₁⟩ := solve_graph h₁
  obtain ⟨hgraph₂, hsize₂⟩ := solve_graph h₂
  have hgraph := hgraph₁.trans hgraph₂.symm
  refine ⟨hgraph, Array.ext_getElem? fun i => ?_⟩
  cases hi : s₁.graph.edges[i]? with
  | none =>
    -- Past the last edge neither answer holds a value.
    have hlen := Array.getElem?_eq_none_iff.1 hi
    rw [Array.getElem?_eq_none_iff.2 (hsize₁.trans_le hlen),
      Array.getElem?_eq_none_iff.2 (hsize₂.trans_le (hgraph ▸ hlen))]
  | some e =>
    have he := Array.mem_of_getElem? hi
    have he₂ : e ∈ s₂.graph.edges := hgraph ▸ he
    obtain rfl := (solve_wellFormed h₁).id_eq hi
    rw [solve_getElem?_id h₁ he, solve_getElem?_id h₂ he₂, Domain.le_antisymm
      (solve_value_le hmono h₁ h₂ he) (solve_value_le hmono h₂ h₁ he₂)]

theorem solve_sameResult (hregular : a.Regular) {Holds : α → Prop} {Knows : α → β → Prop}
    {facts : Finset β}
    (hfacts : a.FiniteFacts (a.context f) Holds Knows facts)
    (c₁ c₂ : SolverConfig) :
    SameResult Solution.answer (solve a f c₁) (solve a f c₂) := by
  refine ⟨by rw [solve_ok_iff hregular hfacts, solve_ok_iff hregular hfacts], ?_⟩
  intro s₁ s₂ h₁ h₂
  obtain ⟨hgraph, hvalues⟩ := solve_values_eq hregular.monotone h₁ h₂
  exact Prod.ext hgraph hvalues

end Answers

/-! ## The three analyses -/

theorem Liveness.solve_sameResult (f : Function) (c₁ c₂ : SolverConfig) :
    SameResult Solution.answer (solve Liveness.analysis f c₁) (solve Liveness.analysis f c₂) :=
  FlowFacts.solve_sameResult Liveness.regular
    (IndexSet.finiteFacts (Liveness.keeps_nodes _) rfl) c₁ c₂

theorem Reaching.solve_sameResult (f : Function) (c₁ c₂ : SolverConfig) :
    SameResult Solution.answer (solve Reaching.analysis f c₁) (solve Reaching.analysis f c₂) :=
  FlowFacts.solve_sameResult Reaching.regular
    (IndexSet.finiteFacts (Reaching.keeps_nodes _) rfl) c₁ c₂

theorem Pointer.solve_sameResult (f : Function) (c₁ c₂ : SolverConfig) :
    SameResult Solution.answer (solve Pointer.analysis f c₁) (solve Pointer.analysis f c₂) :=
  FlowFacts.solve_sameResult Pointer.regular (Pointer.finiteFacts _) c₁ c₂

/-- Whatever the function, each of the analyses succeeds in one order of visits if and only if it
    succeeds in another one, and then leaves the same values on all edges and reports the same
    facts. -/
theorem analyses_order_independent (f : Function) (c₁ c₂ : SolverConfig) :
    SameResult Solution.answer (solve Liveness.analysis f c₁) (solve Liveness.analysis f c₂) ∧
    SameResult Solution.answer (solve Pointer.analysis f c₁) (solve Pointer.analysis f c₂) ∧
    SameResult Solution.answer (solve Reaching.analysis f c₁) (solve Reaching.analysis f c₂) ∧
    ∀ kind, SameResult Report.facts (Report.run kind f c₁) (Report.run kind f c₂) := by
  refine ⟨Liveness.solve_sameResult f c₁ c₂, Pointer.solve_sameResult f c₁ c₂,
    Reaching.solve_sameResult f c₁ c₂, fun kind => ?_⟩
  cases kind with
  | liveness =>
    exact (Liveness.solve_sameResult f c₁ c₂).map fun s₁ s₂ => facts_ofSolution_eq _ f
  | pointsTo =>
    exact (Pointer.solve_sameResult f c₁ c₂).map fun s₁ s₂ => facts_ofSolution_eq _ f
  | reaching =>
    exact (Reaching.solve_sameResult f c₁ c₂).map fun s₁ s₂ => facts_ofSolution_eq _ f

end FlowFacts
