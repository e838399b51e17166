import FlowFacts.Proofs.OrderIndependence

/-!
# What a report says

A report is put together from two enumerations. Its facts follow the outgoing edges of one node
after the other, although the values are stored by the number of the edge; its instructions are
those nodes of the graph for which the function has an instruction. Neither loses anything: every
edge leaves a node, and a run that ends has visited every node, which needs its instruction.

Main results:

* `FlowGraph.WellFormed.perm_bySource`, `FlowGraph.WellFormed.pairwise_bySource`: going from node to
  node lists every edge once, by source and then by number.
* `solve_instruction?`: where the solver has an answer, every node has an instruction.
* `Report.run_renders`: a report shows the solution of the same run.
-/

namespace FlowFacts

/-! ## Edges by source -/

/-- By source, and then by number. -/
def Edge.Before (d e : Edge) : Prop := d.source < e.source ∨ d.source = e.source ∧ d.id < e.id

namespace FlowGraph

variable {g : FlowGraph} {e : Edge}

/-- The outgoing edges of one node after the other. -/
def bySource (g : FlowGraph) : List Edge := (List.range g.nodeCount).flatMap g.outgoing

namespace WellFormed

theorem pairwise_bySource (hg : g.WellFormed) : g.bySource.Pairwise Edge.Before := by
  rw [bySource, List.pairwise_flatMap]
  constructor
  · intro n _
    refine (hg.pairwise_id.filter _).imp_of_mem fun hd he hlt => ?_
    exact .inr ⟨(mem_outgoing.1 hd).2.trans (mem_outgoing.1 he).2.symm, hlt⟩
  · refine List.pairwise_lt_range.imp fun hmn d hd e he => ?_
    refine .inl ?_
    rwa [(mem_outgoing.1 hd).2, (mem_outgoing.1 he).2]

theorem mem_bySource (hg : g.WellFormed) : e ∈ g.bySource ↔ e ∈ g.edges.toList := by
  rw [bySource, List.mem_flatMap, Array.mem_toList_iff]
  constructor
  · rintro ⟨n, -, he⟩
    exact (mem_outgoing.1 he).1
  · intro he
    refine ⟨e.source, List.mem_range.2 ?_, mem_outgoing.2 ⟨he, rfl⟩⟩
    rcases hg.source_mem he with hsource | hsource
    · rw [hsource]
      exact Nat.succ_pos _
    · exact Nat.lt_succ_of_le (mem_nodes.1 hsource).2

theorem perm_bySource (hg : g.WellFormed) : g.bySource.Perm g.edges.toList := by
  have hnodup : g.bySource.Nodup := by
    refine hg.pairwise_bySource.imp ?_
    rintro d _ hbefore rfl
    rcases hbefore with h | ⟨-, h⟩ <;> exact Nat.lt_irrefl _ h
  exact (List.perm_ext_iff_of_nodup hnodup hg.nodup_edges).2 fun _ => hg.mem_bySource

end WellFormed

end FlowGraph

/-! ## Reports of solutions -/

section Solutions

variable {α : Type} [Domain α]

theorem Solution.facts_eq (s : Solution α) :
    s.facts = s.graph.bySource.map fun e => (e, s.value e) := by
  rw [FlowGraph.bySource, List.map_flatMap]
  rfl

/-- The fact shows an edge and the value that is stored for it. -/
structure Fact.Shows [Rendered α] (s : Solution α) (e : Edge) (x : Fact) : Prop where
  source : x.source = e.source
  target : x.target = e.target
  value : ∃ v, s.values[e.id]? = some v ∧ x.value = Rendered.text v ∧ x.data = Rendered.toJson v

/-- The listed instruction shows the one at an index, with the label of its block. -/
structure IndexedInstruction.Shows (f : Function) (g : FlowGraph) (n : Nat)
    (i : IndexedInstruction) : Prop where
  index : i.index = n
  text : ∃ inst, g.instruction? f n = some inst ∧ i.text = f.instText inst ∧
    i.block = ((f.block? inst.block).map Block.label).getD ""

/-- The report shows a solution for `f`: a row for each edge of the graph, by source and then by
    number, and each instruction, by index. -/
structure Report.Renders [Rendered α] (kind : AnalysisKind) (f : Function) (r : Report)
    (s : Solution α) : Prop where
  graph : s.graph = FlowGraph.build f kind.direction
  heading : r.function = f.name ∧ r.analysis = kind ∧ r.direction = kind.direction ∧
    r.stats = s.stats
  facts : ∃ edges : List Edge, edges.Perm s.graph.edges.toList ∧ edges.Pairwise Edge.Before ∧
    List.Forall₂ (Fact.Shows s) edges r.facts
  instructions : List.Forall₂ (IndexedInstruction.Shows f s.graph)
    (List.range' 1 f.instructions.length) r.instructions
  text : r.text = s.text

theorem Report.text_ofSolution [Rendered α] (kind : AnalysisKind) (f : Function)
    (s : Solution α) : (ofSolution kind f s).text = s.text := by
  rw [Report.text, Solution.text, ofSolution, List.map_map]
  rfl

variable [DecidableEq α] {a : Analysis α} {f : Function} {config : SolverConfig} {s : Solution α}

/-- Where the solver has an answer, every node has an instruction. -/
theorem solve_instruction? [LawfulDomain α] (h : solve a f config = .ok s) {n : Nat}
    (hn : n ∈ s.graph.nodes) : ∃ inst, s.graph.instruction? f n = some inst := by
  obtain ⟨inst, -, hinst, -⟩ := solve_settledAt h hn
  exact ⟨inst, hinst⟩

/-- A selection that leaves nothing out stands beside what it selects from. -/
theorem forall₂_filterMap {β γ : Type} {p : β → Option γ} {xs : List β}
    (h : ∀ x ∈ xs, ∃ y, p x = some y) :
    List.Forall₂ (fun x y => p x = some y) xs (xs.filterMap p) := by
  induction xs with
  | nil => exact .nil
  | cons x xs ih =>
    rw [List.forall_mem_cons] at h
    obtain ⟨⟨y, hy⟩, hxs⟩ := h
    rw [List.filterMap_cons_some hy]
    exact .cons hy (ih hxs)

variable [Rendered α] (kind : AnalysisKind)

namespace Report

theorem facts_ofSolution (h : solve a f config = .ok s) :
    List.Forall₂ (Fact.Shows s) s.graph.bySource (ofSolution kind f s).facts := by
  rw [ofSolution, Solution.facts_eq, List.map_map, List.forall₂_map_right_iff, List.forall₂_same]
  intro e he
  rw [(solve_wellFormed h).mem_bySource, Array.mem_toList_iff] at he
  exact ⟨rfl, rfl, s.value e, solve_getElem?_id h he, rfl, rfl⟩

theorem instructions_ofSolution [LawfulDomain α] (h : solve a f config = .ok s) :
    List.Forall₂ (IndexedInstruction.Shows f s.graph) s.graph.nodes
      (ofSolution kind f s).instructions := by
  have hlisted : ∀ n ∈ s.graph.nodes, ∃ i, listing? f s.graph n = some i := by
    intro n hn
    obtain ⟨inst, hinst⟩ := solve_instruction? h hn
    rw [listing?, hinst]
    exact ⟨_, rfl⟩
  refine (forall₂_filterMap hlisted).imp fun n i hi => ?_
  obtain ⟨inst, hinst, rfl⟩ := Option.map_eq_some_iff.1 hi
  exact ⟨rfl, inst, hinst, rfl, rfl⟩

theorem renders_ofSolution [LawfulDomain α] (hdirection : a.direction = kind.direction)
    (h : solve a f config = .ok s) : Renders kind f (ofSolution kind f s) s := by
  have hgraph : s.graph = FlowGraph.build f kind.direction := hdirection ▸ (solve_graph h).1
  have hg := solve_wellFormed h
  have hnodes : s.graph.nodes = List.range' 1 f.instructions.length := by
    rw [hgraph, FlowGraph.nodes, FlowGraph.build, FlowGraph.numbering, List.size_toArray,
      List.length_map]
  refine ⟨hgraph, ⟨rfl, rfl, ?_, rfl⟩, ?_, ?_, text_ofSolution kind f s⟩
  · show s.graph.direction = kind.direction
    rw [hgraph]
    rfl
  · exact ⟨s.graph.bySource, hg.perm_bySource, hg.pairwise_bySource, facts_ofSolution kind h⟩
  · exact hnodes ▸ instructions_ofSolution kind h

theorem renders_solved [LawfulDomain α] (hdirection : a.direction = kind.direction) (f : Function)
    (config : SolverConfig) :
    Agree (Renders kind f) (solved kind a f config) (solve a f config) := by
  rw [solved]
  cases h : solve a f config with
  | error e => exact .error e
  | ok s => exact .ok (renders_ofSolution kind hdirection h)

end Report

end Solutions

/-- Reports lose and reorder nothing. With the same settings the run of an analysis and the solver
    fail with the same error, or the report shows the solution: one row for each edge, by source
    and then by number, with the stored value as text and as JSON; each instruction once, by index;
    and the same text. -/
theorem Report.run_renders (f : Function) (config : SolverConfig) :
    Agree (Renders .liveness f) (run .liveness f config) (solve Liveness.analysis f config) ∧
    Agree (Renders .pointsTo f) (run .pointsTo f config) (solve Pointer.analysis f config) ∧
    Agree (Renders .reaching f) (run .reaching f config) (solve Reaching.analysis f config) :=
  ⟨renders_solved .liveness rfl f config, renders_solved .pointsTo rfl f config,
    renders_solved .reaching rfl f config⟩

/-- The entry edge of `spin` has the last number and stands in the first row. -/
example : (FlowGraph.build spin .forward).entryEdge = some 3 ∧
    ((Report.run .reaching spin { order := .lifo }).toOption.map fun r =>
      r.facts.map fun x => (x.source, x.target, x.value)) =
      some [(0, 1, ""), (1, 2, "1|"), (2, 3, "1|"), (3, 3, "1|")] := by
  decide +kernel

end FlowFacts
