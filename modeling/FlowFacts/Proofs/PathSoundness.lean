import FlowFacts.Proofs.FactPaths

/-!
# Answers are sound along every path

An analysis can be followed along a path of edges: the first edge holds what is known there without
any edge in front of it, and each further edge what the analysis produces for it from the value of
the edge before. Paths may run through loops as often as they like. For a monotone analysis the
answer of the solver lies above the value of every path. It may lie strictly above all of them,
since the solver joins paths before it goes on.

Main results:

* `solve_component_le`: what is produced from less than what is known in front of a node lies below
  the stored value.
* `Analysis.Regular.exists_onPath`: a regular analysis can be followed along every path.
* `solve_sound_on_paths`: the answer lies above the values of all paths.
-/

namespace FlowFacts

/-! ## Following a path -/

/-- A sequence of edges, each of which starts where the one before it ends. The first one may be the
    entry edge. -/
structure FlowGraph.IsWalk (g : FlowGraph) (path : List Edge) : Prop where
  mem_edges : ∀ e ∈ path, e ∈ g.edges
  chain : path.IsChain fun d e => d.target = e.source

section Following

variable {α : Type} [Domain α]

/-- What is known on an edge if nothing is known in front of it: the initial value on the entry
    edge, and what the analysis produces from the least value on every other one. -/
def Analysis.onFirst (a : Analysis α) (ctx : FlowContext) (e : Edge) : Option α :=
  if e.source = FlowGraph.virtualEntry then some a.initial
  else a.component ctx e.source Domain.bottom e

/-- What the analysis produces along a path that goes on from an edge with the value `x`; nothing if
    it fails somewhere. -/
def Analysis.along (a : Analysis α) (ctx : FlowContext) : α → List Edge → Option α
  | x, [] => some x
  | x, e :: rest => (a.component ctx e.source x e).bind fun y => a.along ctx y rest

/-- What the analysis produces for the last edge of a path; nothing if it fails somewhere, or if the
    path has no edge. -/
def Analysis.onPath (a : Analysis α) (ctx : FlowContext) : List Edge → Option α
  | [] => none
  | first :: rest => (a.onFirst ctx first).bind fun x => a.along ctx x rest

end Following

/-! ## Values of paths -/

section Paths

variable {α : Type} [Domain α] [LawfulDomain α] {a : Analysis α} {f : Function}
  {config : SolverConfig} {s : Solution α} {d e : Edge} {rest path : List Edge} {x v : α}

/-- An edge in front of a node contributes to what is known there. -/
theorem Solution.value_le_input (hd : d ∈ s.graph.edges) (hlink : d.target = e.source) :
    Domain.LE (s.value d) (s.input e.source) :=
  Domain.le_joinAll (List.mem_map_of_mem (FlowGraph.mem_incoming.2 ⟨hd, hlink⟩))

variable [DecidableEq α]

/-- What a monotone analysis produces from less than what is known in front of a node lies below
    the stored value. -/
theorem solve_component_le (hmono : a.Monotone) (h : solve a f config = .ok s)
    (he : e ∈ s.graph.edges) (hx : Domain.LE x (s.input e.source))
    (hv : a.component ⟨f, s.graph⟩ e.source x e = some v) : Domain.LE v (s.value e) := by
  obtain ⟨inst, -, hinst, -⟩ := Analysis.component_eq_some hv
  have hsource : 1 ≤ e.source :=
    (FlowGraph.mem_nodes.1 (FlowGraph.mem_nodes_of_instruction? hinst)).1
  have hstored := solve_component hmono h hsource (FlowGraph.mem_outgoing.2 ⟨he, rfl⟩)
  exact hmono.component_le hx hv hstored

theorem solve_onFirst_le (hmono : a.Monotone) (h : solve a f config = .ok s)
    (he : e ∈ s.graph.edges) (hx : a.onFirst ⟨f, s.graph⟩ e = some x) :
    Domain.LE x (s.value e) := by
  unfold Analysis.onFirst at hx
  split_ifs at hx with hsource
  · have hentry := solve_getElem?_entry h (((solve_wellFormed h).entry_iff he).2 hsource)
    rw [solve_getElem?_id h he] at hentry
    cases hx
    rw [Option.some.inj hentry]
    exact Domain.le_refl _
  · exact solve_component_le hmono h he (Domain.bottom_le _) hx

/-- Along a path the values stay below the stored ones. The induction is on what is left of the
    path, from an edge `d` that has been reached with a value below its own. -/
theorem solve_along_le (hmono : a.Monotone) (h : solve a f config = .ok s)
    (hwalk : s.graph.IsWalk (d :: rest)) (hx : Domain.LE x (s.value d))
    (hv : a.along ⟨f, s.graph⟩ x rest = some v) (hlast : (d :: rest).getLast? = some e) :
    Domain.LE v (s.value e) := by
  induction rest generalizing d x with
  | nil =>
    cases hv
    cases hlast
    exact hx
  | cons next rest ih =>
    obtain ⟨y, hy, hv⟩ := Option.bind_eq_some_iff.1 hv
    obtain ⟨hmem, hchain⟩ := hwalk
    rw [List.isChain_cons_cons] at hchain
    rw [List.forall_mem_cons] at hmem
    have hinput := Domain.le_trans hx (Solution.value_le_input hmem.1 hchain.1)
    have hnext : Domain.LE y (s.value next) :=
      solve_component_le hmono h (hmem.2 next List.mem_cons_self) hinput hy
    exact ih ⟨hmem.2, hchain.2⟩ hnext hv (by rwa [List.getLast?_cons_cons] at hlast)

theorem solve_onPath_le (hmono : a.Monotone) (h : solve a f config = .ok s)
    (hwalk : s.graph.IsWalk path) (hv : a.onPath ⟨f, s.graph⟩ path = some v)
    (hlast : path.getLast? = some e) : Domain.LE v (s.value e) := by
  cases path with
  | nil => cases hlast
  | cons first rest =>
    obtain ⟨x, hx, hv⟩ := Option.bind_eq_some_iff.1 hv
    have hfirst := solve_onFirst_le hmono h (hwalk.mem_edges first List.mem_cons_self) hx
    exact solve_along_le hmono h hwalk hfirst hv hlast

/-! ## Paths that do not fail -/

/-- Once the solver has answered, a regular analysis succeeds at every node, whatever is known in
    front of it. -/
theorem Analysis.Regular.exists_component (hregular : a.Regular) (h : solve a f config = .ok s)
    (he : e ∈ s.graph.edges) (hsource : 1 ≤ e.source) (x : α) :
    ∃ v, a.component ⟨f, s.graph⟩ e.source x e = some v := by
  obtain ⟨st, hreach, hpending, rfl⟩ := solve_eq_ok h
  have hg := a.wellFormed_context f
  have hnode := (hg.source_mem he).resolve_left (Nat.ne_of_gt hsource)
  obtain ⟨_, hproduce, -⟩ := hreach.settledAt hg hnode (by simp [hpending])
  obtain ⟨produced, hproduced⟩ := hregular.produce_ok hproduce x
  have hout : e ∈ (a.context f).graph.outgoing e.source := FlowGraph.mem_outgoing.2 ⟨he, rfl⟩
  have hplace := List.idxOf_lt_length_iff.2 hout
  obtain ⟨-, -, -, hlength⟩ := Solver.produce_eq_ok_iff.1 hproduced
  rw [← hlength] at hplace
  have hmem := (mem_zip_iff (hg.nodup_outgoing e.source)).2
    ⟨hout, List.getElem?_eq_getElem hplace⟩
  exact ⟨_, Solver.component_eq_of_produce hg hproduced hmem⟩

theorem Analysis.Regular.exists_along (hregular : a.Regular) (h : solve a f config = .ok s)
    (hwalk : s.graph.IsWalk (d :: rest)) (x : α) :
    ∃ v, a.along ⟨f, s.graph⟩ x rest = some v := by
  induction rest generalizing d x with
  | nil => exact ⟨x, rfl⟩
  | cons next rest ih =>
    obtain ⟨hmem, hchain⟩ := hwalk
    rw [List.isChain_cons_cons] at hchain
    rw [List.forall_mem_cons] at hmem
    have hsource : 1 ≤ next.source := by
      rw [← hchain.1]
      exact (FlowGraph.mem_nodes.1 ((solve_wellFormed h).target_mem hmem.1)).1
    obtain ⟨y, hy⟩ := hregular.exists_component h (hmem.2 next List.mem_cons_self) hsource x
    obtain ⟨v, hv⟩ := ih ⟨hmem.2, hchain.2⟩ y
    exact ⟨v, Option.bind_eq_some_iff.2 ⟨y, hy, hv⟩⟩

/-- A regular analysis can be followed along every path of a function that it has an answer for. -/
theorem Analysis.Regular.exists_onPath (hregular : a.Regular) (h : solve a f config = .ok s)
    (hwalk : s.graph.IsWalk path) (hne : path ≠ []) :
    ∃ v, a.onPath ⟨f, s.graph⟩ path = some v := by
  cases path with
  | nil => exact absurd rfl hne
  | cons first rest =>
    have hfirst : ∃ x, a.onFirst ⟨f, s.graph⟩ first = some x := by
      have hmem := hwalk.mem_edges first List.mem_cons_self
      unfold Analysis.onFirst
      split_ifs with hsource
      · exact ⟨a.initial, rfl⟩
      · exact hregular.exists_component h hmem (Nat.pos_of_ne_zero hsource) _
    obtain ⟨x, hx⟩ := hfirst
    obtain ⟨v, hv⟩ := hregular.exists_along h hwalk x
    exact ⟨v, Option.bind_eq_some_iff.2 ⟨x, hx, hv⟩⟩

end Paths

/-! ## Answers -/

/-- For every monotone analysis, in either order of visits, the value that it has along a path of
    the graph lies below the stored value of the last edge of the path. The points-to analysis is
    monotone, and it has a value along every path of a function that it has an answer for. -/
theorem solve_sound_on_paths :
    (∀ {α : Type} [Domain α] [DecidableEq α] [LawfulDomain α] (a : Analysis α), a.Monotone →
      ∀ (f : Function) (config : SolverConfig) {s : Solution α}, solve a f config = .ok s →
      ∀ {path : List Edge} {e : Edge}, (FlowGraph.build f a.direction).IsWalk path →
        path.getLast? = some e →
        ∀ {x : α}, a.onPath ⟨f, FlowGraph.build f a.direction⟩ path = some x →
          Domain.LE x (s.value e)) ∧
    ∀ (f : Function) (config : SolverConfig) {s : Solution PointsTo},
      solve Pointer.analysis f config = .ok s →
      ∀ {path : List Edge} {e : Edge}, (FlowGraph.build f .forward).IsWalk path →
        path.getLast? = some e →
        ∃ x, Pointer.analysis.onPath ⟨f, FlowGraph.build f .forward⟩ path = some x ∧
          Domain.LE x (s.value e) := by
  constructor
  · intro α _ _ _ a hmono f config s h path e hwalk hlast x hx
    rw [← (solve_graph h).1] at hwalk hx
    exact solve_onPath_le hmono h hwalk hx hlast
  · intro f config s h path e hwalk hlast
    have hgraph : s.graph = FlowGraph.build f .forward := (solve_graph h).1
    rw [← hgraph] at hwalk ⊢
    have hne : path ≠ [] := by
      rintro rfl
      cases hlast
    obtain ⟨x, hx⟩ := Pointer.regular.exists_onPath h hwalk hne
    exact ⟨x, hx, solve_onPath_le Pointer.regular.monotone h hwalk hx hlast⟩

/-- Two ways to a block that stores a pointer behind itself; each way allocates a cell of its own
    for the pointer. -/
def crossing : Function :=
  ((Builder.fresh "crossing").run
    [.block "entry", .createBlock "left", .createBlock "right", .createBlock "join",
      .branch (.arg 0) (.ofNat 1) (.ofNat 2), .switchTo (.ofNat 1), .alloca, .jump (.ofNat 3),
      .switchTo (.ofNat 2), .alloca, .jump (.ofNat 3), .switchTo (.ofNat 3),
      .appendMerge [(.inst (.ofSlot 1), .ofNat 1), (.inst (.ofSlot 3), .ofNat 2)],
      .store (.inst (.ofSlot 5)) (.inst (.ofSlot 5)), .ret none]).function.linked

/-- The path of `crossing` through its left block, from the entry to the return. -/
def leftPath : List Edge :=
  [⟨0, 1, 8⟩, ⟨1, 2, 0⟩, ⟨2, 3, 2⟩, ⟨3, 6, 3⟩, ⟨6, 7, 6⟩, ⟨7, 8, 7⟩]

/-- Through the left block of `crossing` the cell of node 2 points to itself only; the answer lies
    strictly above that, since there the pointer may have either of the two cells behind it. -/
theorem solve_sound_on_paths_crossing :
    Pointer.analysis.Monotone ∧ (FlowGraph.build crossing .forward).IsWalk leftPath ∧
      ∃ s x, solve Pointer.analysis crossing { order := .lifo } = .ok s ∧
        Pointer.analysis.onPath ⟨crossing, FlowGraph.build crossing .forward⟩ leftPath = some x ∧
        (x.targets (.memory 2)).items = [.memory 2] ∧
        ((s.value ⟨7, 8, 7⟩).targets (.memory 2)).items = [.memory 2, .memory 4] ∧
        Domain.LE x (s.value ⟨7, 8, 7⟩) := by
  have hmono := Pointer.regular.monotone
  have hwalk : (FlowGraph.build crossing .forward).IsWalk leftPath :=
    ⟨by decide +kernel, by decide +kernel⟩
  obtain ⟨s, hs⟩ : ∃ s, solve Pointer.analysis crossing { order := .lifo } = .ok s :=
    exists_ok_of_toBool (by decide +kernel)
  have hstored : (solve Pointer.analysis crossing { order := .lifo }).toOption.map (fun s =>
      ((s.value ⟨7, 8, 7⟩).targets (.memory 2)).items) = some [.memory 2, .memory 4] := by
    decide +kernel
  have hpath : (Pointer.analysis.onPath ⟨crossing, FlowGraph.build crossing .forward⟩
      leftPath).map (fun x => (x.targets (.memory 2)).items) = some [.memory 2] := by
    decide +kernel
  rw [hs] at hstored
  obtain ⟨x, hx, hitems⟩ := Option.map_eq_some_iff.1 hpath
  exact ⟨hmono, hwalk, s, x, hs, hx, hitems, Option.some.inj hstored,
    solve_sound_on_paths.1 _ hmono _ _ hs hwalk rfl hx⟩

end FlowFacts
