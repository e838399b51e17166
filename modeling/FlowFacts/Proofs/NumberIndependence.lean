import FlowFacts.Proofs.ControlFlow
import FlowFacts.Proofs.Renumbering

/-!
# Facts do not depend on the numbers of instructions

Analyses look up instructions by number and keep indices. With other numbers every lookup gives the
same index, or fails with a fault that names the new number. `Analysis.Nominal` says so of a
transfer function, and a run of the solver inherits it from visit to visit.

Main results:

* `Liveness.nominal`, `Pointer.nominal`, `Reaching.nominal`: numbers are names only.
* `Solver.iterate_renumbers`: a run takes the same visits with other numbers.
* `run_renumber`: reports have the same direction, work and facts.
-/

namespace FlowFacts

/-! ## Results -/

section Results

variable {ε ε' α β γ δ ι κ : Type} {r : ε → ε'}

/-- Changes the value of a computation that succeeds and the error of one that fails. -/
def mapBoth (r : ε → ε') (h : α → β) : Except ε α → Except ε' β
  | .ok a => .ok (h a)
  | .error e => .error (r e)

theorem bind_eq_mapBoth {x : Except ε α} {y : Except ε' β} {f : α → Except ε γ}
    {g : β → Except ε' δ} {h : α → β} {k : γ → δ} (hx : y = mapBoth r h x)
    (hf : ∀ a, g (h a) = mapBoth r k (f a)) : y >>= g = mapBoth r k (x >>= f) := by
  subst hx
  cases x with
  | ok a => exact hf a
  | error e => rfl

theorem foldlM_eq_mapBoth {f : α → ι → Except ε α} {g : α → κ → Except ε' α} {φ : ι → κ}
    (hstep : ∀ a i, g a (φ i) = mapBoth r id (f a i)) (xs : List ι) (a : α) :
    (xs.map φ).foldlM g a = mapBoth r id (xs.foldlM f a) := by
  induction xs generalizing a with
  | nil => rfl
  | cons i xs ih =>
    rw [List.map_cons, List.foldlM_cons, List.foldlM_cons]
    exact bind_eq_mapBoth (hstep a i) ih

theorem mapM_eq_mapBoth {f : ι → Except ε α} {g : ι → Except ε' α}
    (hstep : ∀ i, g i = mapBoth r id (f i)) (xs : List ι) :
    xs.mapM g = mapBoth r id (xs.mapM f) := by
  induction xs with
  | nil => rfl
  | cons i xs ih =>
    rw [List.mapM_cons, List.mapM_cons]
    refine bind_eq_mapBoth (hstep i) fun a => bind_eq_mapBoth ih fun as => rfl

/-- Results with the same `key` that fail together. -/
theorem sameResult_of_mapBoth {r : ε → ε} {key : α → β} {x y : Except ε α}
    (h : y.map key = mapBoth r key x) :
    SameResult key x y ∧ ∀ e, x = .error e → y = .error (r e) := by
  cases x with
  | error e =>
    obtain rfl := map_eq_error h
    refine ⟨⟨by simp, fun u v hu => by cases hu⟩, fun e' he => ?_⟩
    cases he
    rfl
  | ok a =>
    obtain ⟨b, rfl, hkey⟩ := map_eq_ok h
    refine ⟨⟨by simp, fun u v hu hv => ?_⟩, fun e he => by cases he⟩
    cases hu
    cases hv
    exact hkey.symm

end Results

/-- The fault with the new numbers of the instructions that it names. -/
def FlowFault.renumber (σ : InstId → InstId) : FlowFault → FlowFault
  | unplacedOperand inst => unplacedOperand (σ inst)
  | missingOperand opcode inst position => missingOperand opcode (σ inst) position
  | noIndex inst => noIndex (σ inst)
  | unknownInstruction inst => unknownInstruction (σ inst)
  | fault => fault

/-- The error with the new numbers of the instructions that it names. -/
def FlowError.renumber (σ : InstId → InstId) : FlowError → FlowError
  | malformed function fault => malformed function (fault.renumber σ)
  | unsettled function analysis => unsettled function analysis

/-! ## Lookups -/

namespace FlowContext

/-- One context is another one with other numbers. -/
structure Renumbers (σ : Equiv.Perm InstId) (ctx ctx' : FlowContext) : Prop where
  function : ctx.function.Renumbers σ ctx'.function
  graph : ctx'.graph = ctx.graph.renumber σ

theorem operand_renumber {σ : InstId → InstId} (inst : Instruction) (position : Nat) :
    operand (inst.renumber σ) position =
      mapBoth (FlowFault.renumber σ) (Operand.renumber σ) (operand inst position) := by
  rw [operand, operand, Instruction.operand?_renumber]
  cases inst.operand? position <;> rfl

variable {σ : Equiv.Perm InstId} {ctx ctx' : FlowContext} (h : ctx.Renumbers σ ctx')

include h

theorem Renumbers.indexOf? (id : InstId) : ctx'.graph.indexOf? (σ id) = ctx.graph.indexOf? id := by
  rw [h.graph]
  exact FlowGraph.indexIn_map _ _

theorem Renumbers.instruction? (n : Nat) :
    ctx'.instruction? n = (ctx.instruction? n).map (Instruction.renumber σ) := by
  rw [FlowContext.instruction?, FlowContext.instruction?, FlowGraph.instruction?,
    FlowGraph.instruction?, h.graph, FlowGraph.instAt?_renumber]
  cases ctx.graph.instAt? n with
  | none => rfl
  | some id => exact h.function.inst? id

theorem Renumbers.blockOf? (n : Nat) : ctx'.blockOf? n = ctx.blockOf? n := by
  show (ctx'.instruction? n).map Instruction.block = (ctx.instruction? n).map Instruction.block
  rw [h.instruction?, Option.map_map]
  rfl

theorem tracked_renumbers (operand : Operand) :
    ctx'.tracked (operand.renumber σ) =
      mapBoth (FlowFault.renumber σ) id (ctx.tracked operand) := by
  rw [tracked, tracked, Operand.inst?_renumber]
  cases operand.inst? with
  | none => rfl
  | some id =>
    simp only [Option.map_some, h.indexOf?]
    cases ctx.graph.indexOf? id <;> rfl

theorem indexOf_renumbers (inst : Instruction) :
    ctx'.indexOf (inst.renumber σ) = mapBoth (FlowFault.renumber σ) id (ctx.indexOf inst) := by
  rw [indexOf, indexOf, Instruction.id_renumber, h.indexOf?]
  cases ctx.graph.indexOf? inst.id <;> rfl

theorem mergesOf_renumbers (ids : List InstId) :
    ctx'.mergesOf (ids.map σ) =
      mapBoth (FlowFault.renumber σ) (List.map fun p => (p.1, p.2.renumber σ))
        (ctx.mergesOf ids) := by
  induction ids with
  | nil => rfl
  | cons id ids ih =>
    rw [List.map_cons, mergesOf, mergesOf, h.function.inst?]
    cases ctx.function.inst? id with
    | none => rfl
    | some inst =>
      rw [Option.map_some]
      dsimp only
      rw [Instruction.isMerge_renumber]
      split_ifs
      · refine bind_eq_mapBoth (indexOf_renumbers h inst) fun index => ?_
        exact bind_eq_mapBoth ih fun group => rfl
      · rfl

theorem mergeGroup_renumbers (block : BlockId) :
    ctx'.mergeGroup block =
      mapBoth (FlowFault.renumber σ) (List.map fun p => (p.1, p.2.renumber σ))
        (ctx.mergeGroup block) := by
  rw [mergeGroup, mergeGroup, h.function.block?]
  cases ctx.function.block? block with
  | none => rfl
  | some blk => exact mergesOf_renumbers h blk.instructions

theorem isGroupHead_renumbers (inst : Instruction) :
    ctx'.isGroupHead (inst.renumber σ) =
      mapBoth (FlowFault.renumber σ) id (ctx.isGroupHead inst) := by
  rw [isGroupHead, isGroupHead, Instruction.isMerge_renumber, Instruction.block_renumber,
    Instruction.id_renumber, h.function.block?]
  split_ifs
  · cases ctx.function.block? inst.block with
    | none => rfl
    | some blk =>
      have hfirst : (blk.renumber σ).first? = some (σ inst.id) ↔ blk.first? = some inst.id := by
        rw [Block.first?_renumber, ← Option.map_some]
        exact (Option.map_injective σ.injective).eq_iff
      exact congrArg Except.ok (decide_eq_decide.2 hfirst)
  · rfl

end FlowContext

/-! ## Analyses -/

/-- An analysis for which numbers are names only: with other numbers it produces the same values
    from the same input, and fails where it failed. -/
structure Analysis.Nominal {α : Type} (a : Analysis α) : Prop where
  height : ∀ (σ : InstId → InstId) (g : FlowGraph), a.height (g.renumber σ) = a.height g
  transfer : ∀ {σ : Equiv.Perm InstId} {ctx ctx' : FlowContext}, ctx.Renumbers σ ctx' →
    ∀ (inst : Instruction) (node : Nat) (x : α) (outs : List Edge),
      a.transfer ctx' (inst.renumber σ) node x outs =
        mapBoth (FlowFault.renumber σ) id (a.transfer ctx inst node x outs)

section Transfer

variable {σ : Equiv.Perm InstId} {ctx ctx' : FlowContext} (h : ctx.Renumbers σ ctx')

include h

namespace Liveness

theorem use_renumbers (live : IndexSet) (operand : Operand) :
    use ctx' live (operand.renumber σ) =
      mapBoth (FlowFault.renumber σ) id (use ctx live operand) := by
  refine bind_eq_mapBoth (FlowContext.tracked_renumbers h operand) fun tracked => ?_
  cases tracked <;> rfl

theorem crossMerge_renumbers (pred : BlockId) (live : IndexSet) (merge : Nat × Instruction) :
    crossMerge ctx' pred live (merge.1, merge.2.renumber σ) =
      mapBoth (FlowFault.renumber σ) id (crossMerge ctx pred live merge) := by
  unfold crossMerge
  simp only [Instruction.incomingFor?_renumber]
  cases merge.2.incomingFor? pred with
  | none => rfl
  | some operand => exact use_renumbers h _ operand

theorem crossGroup_renumbers (group : List (Nat × Instruction)) (live : IndexSet) (edge : Edge) :
    crossGroup ctx' (group.map fun p => (p.1, p.2.renumber σ)) live edge =
      mapBoth (FlowFault.renumber σ) id (crossGroup ctx group live edge) := by
  unfold crossGroup
  rw [h.blockOf?]
  cases ctx.blockOf? edge.target with
  | none => rfl
  | some pred => exact foldlM_eq_mapBoth (crossMerge_renumbers h pred) group live

theorem cross_renumbers (inst : Instruction) (index : Nat) (live : IndexSet) :
    cross ctx' (inst.renumber σ) index live =
      mapBoth (FlowFault.renumber σ) id (cross ctx inst index live) :=
  foldlM_eq_mapBoth (use_renumbers h) inst.operands _

end Liveness

namespace Pointer

theorem trackedOperand_renumbers (inst : Instruction) (position : Nat) :
    trackedOperand ctx' (inst.renumber σ) position =
      mapBoth (FlowFault.renumber σ) id (trackedOperand ctx inst position) :=
  bind_eq_mapBoth (FlowContext.operand_renumber inst position)
    (FlowContext.tracked_renumbers h)

theorem crossMerge_renumbers (m : PointsTo) (merge : Nat × Instruction) :
    crossMerge ctx' m (merge.1, merge.2.renumber σ) =
      mapBoth (FlowFault.renumber σ) id (crossMerge ctx m merge) := by
  unfold crossMerge
  simp only [Instruction.incomingPairs_renumber]
  refine foldlM_eq_mapBoth (fun m p => ?_) merge.2.incomingPairs m
  exact bind_eq_mapBoth (FlowContext.tracked_renumbers h p.1) fun tracked => rfl

theorem apply_renumbers (inst : Instruction) (index : Nat) (m : PointsTo) :
    apply ctx' (inst.renumber σ) index m =
      mapBoth (FlowFault.renumber σ) id (apply ctx inst index m) := by
  have hoperand := trackedOperand_renumbers h inst
  unfold apply
  rw [Instruction.opcode_renumber]
  cases inst.opcode with
  | bitcast | getelementptr | load =>
    refine bind_eq_mapBoth (hoperand 0) fun source => ?_
    cases source <;> rfl
  | store =>
    refine bind_eq_mapBoth (hoperand 0) fun value => ?_
    refine bind_eq_mapBoth (hoperand 1) fun pointer => ?_
    cases value with
    | none => rfl
    | some value => cases pointer <;> rfl
  | select =>
    refine bind_eq_mapBoth (hoperand 1) fun first => ?_
    exact bind_eq_mapBoth (hoperand 2) fun second => rfl
  | phi =>
    refine bind_eq_mapBoth (FlowContext.mergeGroup_renumbers h inst.block) fun group => ?_
    exact foldlM_eq_mapBoth (crossMerge_renumbers h) group m
  | _ => rfl

end Pointer

end Transfer

theorem Liveness.nominal : Liveness.analysis.Nominal where
  height σ g := g.size_insts_renumber
  transfer {σ ctx ctx'} h inst node live outs := by
    show transfer ctx' (inst.renumber σ) node live outs =
      mapBoth (FlowFault.renumber σ) id (transfer ctx inst node live outs)
    unfold transfer
    rw [Instruction.isMerge_renumber]
    split
    · refine bind_eq_mapBoth (FlowContext.isGroupHead_renumbers h inst) fun head => ?_
      cases head with
      | false => rfl
      | true =>
        refine bind_eq_mapBoth (FlowContext.mergeGroup_renumbers h inst.block) fun group => ?_
        exact mapM_eq_mapBoth (crossGroup_renumbers h group live) outs
    · exact bind_eq_mapBoth (cross_renumbers h inst node live) fun live => rfl

theorem Pointer.nominal : Pointer.analysis.Nominal where
  height σ g := by
    show 2 * (g.renumber σ).insts.size * (g.renumber σ).insts.size = _
    rw [g.size_insts_renumber]
    rfl
  transfer {σ ctx ctx'} h inst node m outs := by
    show transfer ctx' (inst.renumber σ) node m outs =
      mapBoth (FlowFault.renumber σ) id (transfer ctx inst node m outs)
    unfold transfer
    rw [Instruction.isMerge_renumber]
    split
    · refine bind_eq_mapBoth (FlowContext.isGroupHead_renumbers h inst) fun head => ?_
      cases head with
      | false => rfl
      | true => exact bind_eq_mapBoth (apply_renumbers h inst node m) fun m => rfl
    · exact bind_eq_mapBoth (apply_renumbers h inst node m) fun m => rfl

theorem Reaching.nominal : Reaching.analysis.Nominal where
  height σ g := g.size_insts_renumber
  transfer {σ ctx ctx'} h inst node reaching outs := by
    have hextend : extend ctx' (inst.renumber σ) node reaching =
        mapBoth (FlowFault.renumber σ) id (extend ctx inst node reaching) := by
      unfold extend
      rw [Instruction.isMerge_renumber, Instruction.opcode_renumber]
      split
      · refine bind_eq_mapBoth (FlowContext.isGroupHead_renumbers h inst) fun head => ?_
        cases head with
        | false => rfl
        | true =>
          refine bind_eq_mapBoth (FlowContext.mergeGroup_renumbers h inst.block) fun group => ?_
          exact congrArg Except.ok List.foldl_map
      · split <;> rfl
    exact bind_eq_mapBoth hextend fun reaching => rfl

/-! ## Runs -/

namespace Solver

variable {α : Type} [Domain α] [DecidableEq α] {a : Analysis α} (ha : a.Nominal)
  {σ : Equiv.Perm InstId} {ctx ctx' : FlowContext} (h : ctx.Renumbers σ ctx')

include ha h

/-- A visit changes the state in the same way. -/
theorem visit_renumbers (order : Order) (node : Nat) (st : SolverState α) :
    visit a ctx' order node st =
      mapBoth (FlowFault.renumber σ) id (visit a ctx order node st) := by
  have houtgoing : ctx'.graph.outgoing node = ctx.graph.outgoing node := by
    rw [h.graph]
    rfl
  have hinput : st.input ctx'.graph node = st.input ctx.graph node := by
    rw [h.graph]
    rfl
  rw [visit, visit, h.instruction?]
  cases ctx.instruction? node with
  | none => rfl
  | some inst =>
    simp only [Option.map_some, houtgoing, hinput]
    refine bind_eq_mapBoth (ha.transfer h inst node _ _) fun produced => ?_
    simp only [id]
    split_ifs
    · rfl
    · rfl

/-- A run takes the same visits to the same end. -/
theorem iterate_renumbers (order : Order) (fuel : Nat) (st : SolverState α) :
    iterate a ctx' order fuel st =
      mapBoth (FlowError.renumber σ) id (iterate a ctx order fuel st) := by
  induction fuel generalizing st with
  | zero =>
    rw [iterate.eq_def, iterate.eq_def]
    dsimp only
    cases st.pending with
    | nil => rfl
    | cons node rest =>
      rw [h.function.name]
      rfl
  | succ fuel ih =>
    rw [iterate.eq_def, iterate.eq_def]
    dsimp only
    cases st.pending with
    | nil => rfl
    | cons node rest =>
      dsimp only
      rw [visit_renumbers ha h]
      cases visit a ctx order node { st with pending := rest } with
      | error fault =>
        simp only [mapBoth, FlowContext.malformed, h.function.name]
        rfl
      | ok st' => exact ih st'

end Solver

/-- The solution with the new numbers at the indices of its graph. -/
def Solution.renumber {α : Type} (σ : InstId → InstId) (s : Solution α) : Solution α :=
  { s with graph := s.graph.renumber σ }

section Answers

variable {α : Type} [Domain α] [DecidableEq α] {a : Analysis α} {σ : Equiv.Perm InstId}
  {f g : Function}

/-- With other numbers the solver gives the same answer, or an error that differs only in the
    numbers that it names. -/
theorem solve_renumbers (ha : a.Nominal) (h : f.Renumbers σ g) (config : SolverConfig) :
    solve a g config =
      mapBoth (FlowError.renumber σ) (Solution.renumber σ) (solve a f config) := by
  have hctx : (a.context f).Renumbers σ (a.context g) := ⟨h, FlowGraph.build_renumbers h _⟩
  have hgraph : (a.context g).graph = (a.context f).graph.renumber σ := hctx.graph
  have hlimit : Solver.visitLimit a (a.context g).graph =
      Solver.visitLimit a (a.context f).graph := by
    rw [Solver.visitLimit, hgraph, ha.height, FlowGraph.size_insts_renumber]
    rfl
  have hstart : SolverState.start a (a.context g).graph config =
      SolverState.start a (a.context f).graph config := by
    rw [SolverState.start, hgraph, FlowGraph.nodes_renumber]
    rfl
  rw [solve_eq_map, solve_eq_map, Solver.iterate_renumbers ha hctx, hlimit, hstart, hgraph]
  cases Solver.iterate a (a.context f) config.order _ _ with
  | error e => rfl
  | ok st =>
    simp only [mapBoth, Except.map, SolverState.solution, h.name]
    rfl

end Answers

/-- What a report says, apart from the texts of the instructions. -/
def Report.findings (r : Report) : Direction × Stats × List Fact := (r.direction, r.stats, r.facts)

theorem Report.solved_renumbers {α : Type} [Domain α] [DecidableEq α] [Rendered α]
    {a : Analysis α} (ha : a.Nominal) {σ : Equiv.Perm InstId} {f g : Function}
    (h : f.Renumbers σ g) (kind : AnalysisKind) (config : SolverConfig) :
    (solved kind a g config).map findings =
      mapBoth (FlowError.renumber σ) findings (solved kind a f config) := by
  rw [solved, solved, solve_renumbers ha h]
  cases solve a f config with
  | error e => rfl
  | ok s =>
    have hfacts : (s.renumber σ).facts = s.facts := by
      rw [Solution.facts, Solution.facts, FlowGraph.nodeCount, Solution.renumber,
        FlowGraph.size_insts_renumber]
      rfl
    simp only [mapBoth, Except.map, ofSolution, findings, hfacts]
    rfl

/-- Other numbers for its instructions change nothing about what is found out about a function: each
    analysis succeeds as before, with the same direction, the same work and the same facts, or
    it fails with the error that speaks of the new numbers. -/
theorem run_renumber (f : Function) (ρ : f.Renumbering) (kind : AnalysisKind)
    (config : SolverConfig) :
    SameResult Report.findings (Report.run kind f config)
      (Report.run kind (f.renumber ρ) config) ∧
    ∀ e, Report.run kind f config = .error e →
      Report.run kind (f.renumber ρ) config = .error (e.renumber ρ.perm) := by
  have h := f.renumbers_renumber ρ
  refine sameResult_of_mapBoth ?_
  cases kind with
  | liveness => exact Report.solved_renumbers Liveness.nominal h _ config
  | pointsTo => exact Report.solved_renumbers Pointer.nominal h _ config
  | reaching => exact Report.solved_renumbers Reaching.nominal h _ config

/-- The numbers of `whirl` in the order of its blocks. Its last block was filled first. -/
def inBlockOrder : FlowGraph.whirl.Renumbering where
  perm := .trans (.swap (.ofSlot 0) (.ofSlot 1)) <| .trans (.swap (.ofSlot 1) (.ofSlot 2)) <|
    .trans (.swap (.ofSlot 2) (.ofSlot 3)) <| .trans (.swap (.ofSlot 3) (.ofSlot 4)) <|
    .swap (.ofSlot 4) (.ofSlot 5)
  fixed id hid := by
    have hne : ∀ k < 6, id ≠ .ofSlot k := by
      rintro k hk rfl
      have hsome : ∀ k < 6, (FlowGraph.whirl.inst? (.ofSlot k)).isSome = true := by decide +kernel
      have hslot := hsome k hk
      rw [hid] at hslot
      cases hslot
    simp only [Equiv.trans_apply]
    rw [Equiv.swap_apply_of_ne_of_ne (hne 0 (by decide)) (hne 1 (by decide)),
      Equiv.swap_apply_of_ne_of_ne (hne 1 (by decide)) (hne 2 (by decide)),
      Equiv.swap_apply_of_ne_of_ne (hne 2 (by decide)) (hne 3 (by decide)),
      Equiv.swap_apply_of_ne_of_ne (hne 3 (by decide)) (hne 4 (by decide)),
      Equiv.swap_apply_of_ne_of_ne (hne 4 (by decide)) (hne 5 (by decide))]

/-- In block order all instructions of `whirl` get other numbers, and the facts stay. -/
theorem run_renumber_whirl :
    FlowGraph.whirl.Built ∧
      (FlowGraph.whirl.renumber inBlockOrder).insts.toList.map Instruction.opcode =
        [.alloca, .br, .phi, .phi, .br, .ret] ∧
      ∃ r r', Report.run .pointsTo FlowGraph.whirl { order := .lifo } = .ok r ∧
        Report.run .pointsTo (FlowGraph.whirl.renumber inBlockOrder) { order := .lifo } = .ok r' ∧
        r.findings = r'.findings := by
  obtain ⟨r, hr⟩ : ∃ r, Report.run .pointsTo FlowGraph.whirl { order := .lifo } = .ok r :=
    exists_ok_of_toBool (by decide +kernel)
  have hsame := (run_renumber FlowGraph.whirl inBlockOrder .pointsTo { order := .lifo }).1
  obtain ⟨r', hr'⟩ := hsame.1.1 ⟨r, hr⟩
  exact ⟨⟨"whirl", FlowGraph.whirlSteps, Builder.build_eq_ok_iff.2 ⟨by decide +kernel, rfl⟩⟩,
    by decide +kernel, r, r', hr, hr', hsame.2 r r' hr hr'⟩

end FlowFacts
