import FlowFacts.Proofs.ControlFlow
import FlowFacts.Proofs.NameResolution
import FlowFacts.Proofs.OrderIndependence
import FlowFacts.Proofs.PointerConstraints
import FlowFacts.Proofs.VisitOrder

/-!
# Which functions the analyses refuse

In a function that a builder has handed over, blocks, numbers and indices fit together. So as long
as operands refer to instructions that exist, no lookup of an analysis fails, with one exception:
the rules of the points-to analysis ask for operands that an instruction may not have.

In the order first in, first out the error names the first instruction in block order that lacks an
operand.

Main results:

* `Liveness.produce_ok`, `Reaching.produce_ok`: these two analyses succeed at every node.
* `Pointer.produce_eq`: where the points-to analysis fails, and with which fault.
* `Source.Definition.built_of_resolve`: the functions of a text come from a builder.
* `analyses_verdicts`: which functions are refused, and with which error.
-/

namespace FlowFacts

/-! ## Computations that succeed -/

section

variable {ε ι α β : Type}

theorem exists_bind_ok {x : Except ε α} {f : α → Except ε β} {a : α} (hx : x = .ok a)
    (hf : ∃ b, f a = .ok b) : ∃ b, x >>= f = .ok b := by
  rw [hx]
  exact hf

theorem exists_foldlM_ok {f : α → ι → Except ε α} {xs : List ι}
    (h : ∀ i ∈ xs, ∀ a, ∃ b, f a i = .ok b) (a : α) : ∃ b, xs.foldlM f a = .ok b := by
  induction xs generalizing a with
  | nil => exact ⟨a, rfl⟩
  | cons i xs ih =>
    obtain ⟨b, hb⟩ := h i List.mem_cons_self a
    rw [List.foldlM_cons]
    exact exists_bind_ok hb (ih (fun j hj => h j (List.mem_cons_of_mem i hj)) b)

theorem exists_mapM_ok {f : ι → Except ε α} {xs : List ι} (h : ∀ i ∈ xs, ∃ a, f i = .ok a) :
    ∃ ys, xs.mapM f = .ok ys := by
  obtain ⟨ys, hys⟩ := exists_forall₂ h
  exact ⟨ys, mapM_eq_ok_iff.2 hys⟩

end

/-! ## Lookups in complete functions -/

namespace Function

variable {f : Function} {inst : Instruction} {direction : Direction} {n : Nat}

/-- Operands that refer to an instruction refer to one of the function. -/
def OperandsPlaced (f : Function) : Prop :=
  ∀ inst ∈ f.insts, ∀ operand ∈ inst.operands, ∀ id ∈ operand.inst?, (f.inst? id).isSome = true

namespace Complete

/-- Every node but the virtual one has an instruction. -/
theorem exists_instruction? (h : f.Complete) (hn : n ∈ (FlowGraph.build f direction).nodes) :
    ∃ inst ∈ f.insts, (FlowGraph.build f direction).instruction? f n = some inst := by
  obtain ⟨hpos, hle⟩ := FlowGraph.mem_nodes.1 hn
  obtain ⟨k, rfl⟩ : ∃ k, n = k + 1 := ⟨n - 1, by omega⟩
  have hk : (FlowGraph.build f direction).insts[k]? =
      some (FlowGraph.build f direction).insts[k] := Array.getElem?_eq_getElem hle
  obtain ⟨inst, hinst⟩ := h.mem_numbering.1
    (Array.mem_toList_iff.2 (Array.mem_of_getElem? hk))
  exact ⟨inst, Array.mem_of_getElem? hinst, Option.bind_eq_some_iff.2 ⟨_, hk, hinst⟩⟩

theorem tracked_ok (h : f.Complete) (hplaced : f.OperandsPlaced) (hinst : inst ∈ f.insts)
    {operand : Operand} (hoperand : operand ∈ inst.operands) :
    ∃ found, FlowContext.tracked ⟨f, FlowGraph.build f direction⟩ operand = .ok found := by
  cases operand with
  | inst id =>
    obtain ⟨other, hother⟩ := Option.isSome_iff_exists.1 (hplaced inst hinst _ hoperand id rfl)
    obtain ⟨n, hn⟩ := FlowGraph.exists_indexOf? (g := FlowGraph.build f direction)
      (h.mem_numbering.2 ⟨other, hother⟩)
    exact ⟨some n, FlowContext.tracked_of_refers ⟨id, rfl, hn⟩⟩
  | arg | const | global | null | undefined => exact ⟨none, rfl⟩

theorem mergesOf_ok (h : f.Complete) {ids : List InstId}
    (hids : ∀ id ∈ ids, ∃ inst, f.inst? id = some inst) :
    ∃ group, FlowContext.mergesOf ⟨f, FlowGraph.build f direction⟩ ids = .ok group ∧
      ∀ p ∈ group, p.2 ∈ f.insts := by
  induction ids with
  | nil => exact ⟨[], rfl, by simp⟩
  | cons id ids ih =>
    rw [List.forall_mem_cons] at hids
    obtain ⟨⟨inst, hinst⟩, hids⟩ := hids
    obtain ⟨group, hgroup, hmem⟩ := ih hids
    obtain ⟨n, hn⟩ := h.exists_index direction (Array.mem_of_getElem? hinst)
    have hindex : FlowContext.indexOf ⟨f, FlowGraph.build f direction⟩ inst = .ok n := by
      unfold FlowContext.indexOf
      rw [hn]
    unfold FlowContext.mergesOf
    simp only [hinst]
    split_ifs
    · refine ⟨(n, inst) :: group, by rw [hindex, hgroup]; rfl, ?_⟩
      exact List.forall_mem_cons.2 ⟨Array.mem_of_getElem? hinst, hmem⟩
    · exact ⟨[], rfl, by simp⟩

theorem exists_home (h : f.Complete) (hinst : inst ∈ f.insts) :
    ∃ block ∈ f.blocks.values, f.block? inst.block = some block := by
  obtain ⟨e, he, hkey, -⟩ := h.arranged.exists_block hinst
  refine ⟨e.2, List.mem_map.2 ⟨e, he, rfl⟩, OrderedMap.get?_eq_some_iff.2 ?_⟩
  rw [← hkey]
  exact he

theorem mergeGroup_ok (h : f.Complete) (direction : Direction) (hinst : inst ∈ f.insts) :
    ∃ group, FlowContext.mergeGroup ⟨f, FlowGraph.build f direction⟩ inst.block = .ok group ∧
      ∀ p ∈ group, p.2 ∈ f.insts := by
  obtain ⟨block, hmem, hblock⟩ := h.exists_home hinst
  unfold FlowContext.mergeGroup
  simp only [hblock]
  refine h.mergesOf_ok fun id hid => ?_
  rw [← h.mem_numbering, h.numbering_eq]
  exact List.mem_flatMap.2 ⟨block, hmem, hid⟩

theorem isGroupHead_ok (h : f.Complete) (direction : Direction) (hinst : inst ∈ f.insts) :
    ∃ head, FlowContext.isGroupHead ⟨f, FlowGraph.build f direction⟩ inst = .ok head := by
  obtain ⟨block, -, hblock⟩ := h.exists_home hinst
  unfold FlowContext.isGroupHead
  simp only [hblock]
  split_ifs
  · exact ⟨_, rfl⟩
  · exact ⟨_, rfl⟩

end Complete

end Function

/-! ## Transfer functions -/

section

variable {α : Type} {a : Analysis α} {ctx : FlowContext} {inst : Instruction} {n : Nat} {x : α}

theorem Solver.produce_eq_error {fault : FlowFault} (hinst : ctx.instruction? n = some inst)
    (h : a.transfer ctx inst n x (ctx.graph.outgoing n) = .error fault) :
    Solver.produce a ctx n x = .error fault := by
  unfold Solver.produce
  simp only [hinst, h]
  rfl

/-- A regular analysis produces one value for each edge, so it succeeds where its transfer function
    does. -/
theorem Analysis.Regular.exists_produce [Domain α] [LawfulDomain α] (hregular : a.Regular)
    (hinst : ctx.instruction? n = some inst)
    (h : ∃ ys, a.transfer ctx inst n x (ctx.graph.outgoing n) = .ok ys) :
    ∃ ys, Solver.produce a ctx n x = .ok ys := by
  obtain ⟨ys, hys⟩ := h
  obtain ⟨hlength, -⟩ := (hregular ctx inst n _ (Domain.le_refl x)).rel hys hys
  exact ⟨ys, Solver.produce_eq_ok_iff.2 ⟨inst, hinst, hys, hlength⟩⟩

end

variable {f : Function} {inst : Instruction} {n : Nat}

namespace Liveness

theorem use_ok {ctx : FlowContext} {operand : Operand}
    (h : ∃ found, ctx.tracked operand = .ok found) (live : IndexSet) :
    ∃ live', use ctx live operand = .ok live' := by
  obtain ⟨found, hfound⟩ := h
  refine exists_bind_ok hfound ?_
  cases found with
  | none => exact ⟨live, rfl⟩
  | some index => exact ⟨live.insert index, rfl⟩

/-- Merges can be crossed towards every node: it has an instruction, which lies in a block. -/
theorem crossGroup_ok (hf : f.Complete) (hplaced : f.OperandsPlaced)
    {group : List (Nat × Instruction)} (hgroup : ∀ p ∈ group, p.2 ∈ f.insts) {e : Edge}
    (he : e ∈ (analysis.context f).graph.edges) (live : IndexSet) :
    ∃ live', crossGroup (analysis.context f) group live e = .ok live' := by
  have htarget := (analysis.wellFormed_context f).target_mem he
  obtain ⟨last, -, hlast⟩ := hf.exists_instruction? htarget
  have hpred : (analysis.context f).blockOf? e.target = some last.block :=
    congrArg (Option.map Instruction.block) hlast
  unfold crossGroup
  simp only [hpred]
  refine exists_foldlM_ok (fun merge hmerge live => ?_) live
  unfold crossMerge
  cases hincoming : merge.2.incomingFor? last.block with
  | none => exact ⟨_, rfl⟩
  | some operand =>
    obtain ⟨p, hp, rfl⟩ := Option.map_eq_some_iff.1 hincoming
    have hoperand := (List.of_mem_zip (List.mem_of_find?_eq_some hp)).1
    exact use_ok (hf.tracked_ok hplaced (hgroup merge hmerge) hoperand) _

/-- Liveness succeeds at every node of a complete function. -/
theorem produce_ok (hf : f.Complete) (hplaced : f.OperandsPlaced)
    (hn : n ∈ (analysis.context f).graph.nodes) (live : IndexSet) :
    ∃ ys, Solver.produce analysis (analysis.context f) n live = .ok ys := by
  obtain ⟨inst, hmem, hinst⟩ := hf.exists_instruction? hn
  refine regular.exists_produce hinst ?_
  show ∃ ys, transfer _ inst n live _ = .ok ys
  unfold transfer
  split_ifs
  · obtain ⟨head, hhead⟩ := hf.isGroupHead_ok analysis.direction hmem
    refine exists_bind_ok hhead ?_
    cases head with
    | false => exact ⟨_, rfl⟩
    | true =>
      obtain ⟨group, hgroup, hmerges⟩ := hf.mergeGroup_ok analysis.direction hmem
      refine exists_bind_ok hgroup (exists_mapM_ok fun e he => ?_)
      exact crossGroup_ok hf hplaced hmerges (FlowGraph.mem_outgoing.1 he).1 live
  · have hcross : ∃ live', cross (analysis.context f) inst n live = .ok live' :=
      exists_foldlM_ok (fun operand hoperand live =>
        use_ok (hf.tracked_ok hplaced hmem hoperand) live) _
    obtain ⟨live', hlive⟩ := hcross
    exact exists_bind_ok hlive ⟨_, rfl⟩

end Liveness

namespace Reaching

/-- Reaching definitions succeed at every node of a complete function. -/
theorem produce_ok (hf : f.Complete) (hn : n ∈ (analysis.context f).graph.nodes)
    (reaching : IndexSet) :
    ∃ ys, Solver.produce analysis (analysis.context f) n reaching = .ok ys := by
  obtain ⟨inst, hmem, hinst⟩ := hf.exists_instruction? hn
  have hextend : ∃ reaching', extend (analysis.context f) inst n reaching = .ok reaching' := by
    unfold extend
    split_ifs
    · obtain ⟨head, hhead⟩ := hf.isGroupHead_ok analysis.direction hmem
      refine exists_bind_ok hhead ?_
      cases head with
      | false => exact ⟨_, rfl⟩
      | true =>
        obtain ⟨group, hgroup, -⟩ := hf.mergeGroup_ok analysis.direction hmem
        exact exists_bind_ok hgroup ⟨_, rfl⟩
    · exact ⟨_, rfl⟩
    · exact ⟨_, rfl⟩
  obtain ⟨reaching', hreaching⟩ := hextend
  exact regular.exists_produce hinst (exists_bind_ok hreaching ⟨_, rfl⟩)

end Reaching

/-! ## Missing operands -/

namespace Pointer

/-- The positions of the operands that the rule for an opcode asks for, in this order. -/
def lookups : Opcode → List Nat
  | .bitcast | .getelementptr | .load => [0]
  | .store => [0, 1]
  | .select => [1, 2]
  | _ => []

/-- The first operand that the rule for an instruction asks for and does not find. -/
def missing? (inst : Instruction) : Option Nat :=
  (lookups inst.opcode).find? fun position => inst.operands.length ≤ position

/-- The instruction has too few operands for its rule: none for an address computation or a load,
    fewer than two for a store, fewer than three for a selection. -/
def Lacks (inst : Instruction) : Prop :=
  ((inst.opcode = .bitcast ∨ inst.opcode = .getelementptr ∨ inst.opcode = .load) ∧
    inst.operands = []) ∨
  (inst.opcode = .store ∧ inst.operands.length < 2) ∨
  (inst.opcode = .select ∧ inst.operands.length < 3)

theorem lacks_iff : Lacks inst ↔ ∃ position, missing? inst = some position := by
  have hsome : (∃ position, missing? inst = some position) ↔
      ∃ position ∈ lookups inst.opcode, inst.operands.length ≤ position := by
    rw [← Option.isSome_iff_exists, missing?, List.find?_isSome]
    simp
  rw [hsome]
  unfold Lacks
  cases inst.opcode with
  | store | select =>
    simp only [lookups, List.mem_cons, List.not_mem_nil, or_false, exists_eq_or_imp,
      exists_eq_left, reduceCtorEq, false_and, true_and, false_or]
    omega
  | _ => simp [lookups]

section

variable {ctx : FlowContext} {position : Nat}

theorem trackedOperand_eq_error (h : inst.operands.length ≤ position) :
    trackedOperand ctx inst position = .error (.missingOperand inst.opcode inst.id position) := by
  have hnone : inst.operand? position = none := List.getElem?_eq_none h
  unfold trackedOperand FlowContext.operand
  rw [hnone]
  rfl

theorem trackedOperand_ok
    (hplaced : ∀ operand ∈ inst.operands, ∃ found, ctx.tracked operand = .ok found)
    (h : position < inst.operands.length) :
    ∃ found, trackedOperand ctx inst position = .ok found := by
  have hsome : inst.operand? position = some inst.operands[position] := List.getElem?_eq_getElem h
  unfold trackedOperand FlowContext.operand
  rw [hsome]
  exact hplaced _ (List.getElem_mem h)

/-- Apart from merges, a rule looks its operands up one after the other and cannot fail after
    that. -/
theorem apply_eq_map (ctx : FlowContext) (hphi : inst.opcode ≠ .phi) (index : Nat)
    (m : PointsTo) :
    ∃ finish : List (Option Nat) → PointsTo, apply ctx inst index m =
      ((lookups inst.opcode).mapM (trackedOperand ctx inst)).map finish := by
  unfold apply lookups
  cases hop : inst.opcode with
  | phi => exact absurd hop hphi
  | bitcast | getelementptr =>
    refine ⟨fun found => found[0]?.join.elim m fun source =>
      m.aliasOf (.value index) (.value source), ?_⟩
    simp only [List.mapM_cons, List.mapM_nil]
    cases trackedOperand ctx inst 0 with
    | error fault => rfl
    | ok source => cases source <;> rfl
  | load =>
    refine ⟨fun found => found[0]?.join.elim m fun pointer => load m index pointer, ?_⟩
    simp only [List.mapM_cons, List.mapM_nil]
    cases trackedOperand ctx inst 0 with
    | error fault => rfl
    | ok pointer => cases pointer <;> rfl
  | store =>
    refine ⟨fun found => found[0]?.join.elim m fun value => found[1]?.join.elim m fun pointer =>
      store m value pointer, ?_⟩
    simp only [List.mapM_cons, List.mapM_nil]
    cases trackedOperand ctx inst 0 with
    | error fault => rfl
    | ok value =>
      cases trackedOperand ctx inst 1 with
      | error fault => rfl
      | ok pointer => cases value <;> cases pointer <;> rfl
  | select =>
    refine ⟨fun found => absorbValue (absorbValue m (.value index) found[0]?.join) (.value index)
      found[1]?.join, ?_⟩
    simp only [List.mapM_cons, List.mapM_nil]
    cases trackedOperand ctx inst 1 with
    | error fault => rfl
    | ok first => cases trackedOperand ctx inst 2 <;> rfl
  | alloca => exact ⟨fun _ => m.add (.value index) (.memory index), rfl⟩
  | _ => exact ⟨fun _ => m, rfl⟩

variable (hplaced : ∀ operand ∈ inst.operands, ∃ found, ctx.tracked operand = .ok found)

include hplaced

/-- The lookups of a rule fail with the first operand that is missing. -/
theorem mapM_trackedOperand_eq_error {positions : List Nat}
    (h : positions.find? (fun p => inst.operands.length ≤ p) = some position) :
    positions.mapM (trackedOperand ctx inst) =
      .error (.missingOperand inst.opcode inst.id position) := by
  induction positions with
  | nil => cases h
  | cons first positions ih =>
    rw [List.mapM_cons]
    by_cases hfirst : inst.operands.length ≤ first
    · rw [List.find?_cons_of_pos (by simpa using hfirst), Option.some.injEq] at h
      subst h
      rw [trackedOperand_eq_error hfirst]
      rfl
    · rw [List.find?_cons_of_neg (by simpa using hfirst)] at h
      obtain ⟨found, hfound⟩ := trackedOperand_ok hplaced (Nat.lt_of_not_le hfirst)
      rw [hfound, ih h]
      rfl

theorem apply_eq_error (h : missing? inst = some position) (index : Nat) (m : PointsTo) :
    apply ctx inst index m = .error (.missingOperand inst.opcode inst.id position) := by
  have hphi : inst.opcode ≠ .phi := by
    intro hphi
    rw [missing?, hphi] at h
    cases h
  obtain ⟨finish, heq⟩ := apply_eq_map ctx hphi index m
  rw [heq, mapM_trackedOperand_eq_error hplaced h]
  rfl

theorem apply_ok (hphi : inst.opcode ≠ .phi) (h : missing? inst = none) (index : Nat)
    (m : PointsTo) : ∃ m', apply ctx inst index m = .ok m' := by
  obtain ⟨finish, heq⟩ := apply_eq_map ctx hphi index m
  have hlookups : ∃ found, (lookups inst.opcode).mapM (trackedOperand ctx inst) = .ok found := by
    refine exists_mapM_ok fun position hposition => trackedOperand_ok hplaced ?_
    simpa using List.find?_eq_none.1 h position hposition
  obtain ⟨found, hfound⟩ := hlookups
  rw [heq, hfound]
  exact ⟨finish found, rfl⟩

end

/-- Merges are never refused, for their operands are looked up as a list. -/
theorem transfer_merge_ok (hf : f.Complete) (hplaced : f.OperandsPlaced) (hinst : inst ∈ f.insts)
    (hmerge : inst.isMerge = true) (m : PointsTo) (outs : List Edge) :
    ∃ ys, transfer (analysis.context f) inst n m outs = .ok ys := by
  have happly : ∃ m', apply (analysis.context f) inst n m = .ok m' := by
    obtain ⟨group, hgroup, hmerges⟩ := hf.mergeGroup_ok analysis.direction hinst
    unfold apply
    simp only [opcode_of_isMerge hmerge]
    refine exists_bind_ok hgroup (exists_foldlM_ok (fun merge hmem m => ?_) m)
    refine exists_foldlM_ok (fun p hp m => ?_) m
    obtain ⟨found, hfound⟩ := hf.tracked_ok hplaced (hmerges merge hmem) (List.of_mem_zip hp).1
    exact exists_bind_ok hfound ⟨_, rfl⟩
  obtain ⟨head, hhead⟩ := hf.isGroupHead_ok analysis.direction hinst
  obtain ⟨m', hm'⟩ := happly
  unfold transfer
  rw [if_pos hmerge]
  refine exists_bind_ok hhead ?_
  cases head with
  | false => exact ⟨_, rfl⟩
  | true => exact exists_bind_ok hm' ⟨_, rfl⟩

/-- Where the points-to analysis fails in a complete function, and with which fault. -/
theorem produce_eq (hf : f.Complete) (hplaced : f.OperandsPlaced)
    (hinst : (analysis.context f).instruction? n = some inst) (m : PointsTo) :
    (missing? inst = none → ∃ ys, Solver.produce analysis (analysis.context f) n m = .ok ys) ∧
    ∀ position, missing? inst = some position →
      Solver.produce analysis (analysis.context f) n m =
        .error (.missingOperand inst.opcode inst.id position) := by
  have hmem : inst ∈ f.insts := FlowGraph.mem_insts_of_instruction? hinst
  have htracked : ∀ operand ∈ inst.operands, ∃ found,
      (analysis.context f).tracked operand = .ok found := fun _ => hf.tracked_ok hplaced hmem
  have htransfer : ¬ inst.isMerge = true → ∀ outs,
      transfer (analysis.context f) inst n m outs = (apply (analysis.context f) inst n m).map
        (List.replicate outs.length) := by
    intro hmerge outs
    unfold transfer
    rw [if_neg hmerge]
    cases apply (analysis.context f) inst n m <;> rfl
  have hphi : inst.isMerge = true ↔ inst.opcode = .phi := by
    simp [Instruction.isMerge, Opcode.isMerge]
  constructor
  · intro hnone
    refine regular.exists_produce hinst ?_
    by_cases hmerge : inst.isMerge = true
    · exact transfer_merge_ok hf hplaced hmem hmerge m _
    · obtain ⟨m', hm'⟩ := apply_ok htracked (hphi.not.1 hmerge) hnone n m
      exact ⟨List.replicate _ m', (htransfer hmerge _).trans (by rw [hm']; rfl)⟩
  · intro position hposition
    refine Solver.produce_eq_error hinst ?_
    have hmerge : ¬ inst.isMerge = true := by
      intro hmerge
      rw [missing?, hphi.1 hmerge] at hposition
      cases hposition
    refine (htransfer hmerge _).trans ?_
    rw [apply_eq_error htracked hposition]
    rfl

end Pointer

/-! ## Parsed modules -/

/-- Steps lead from the start of a function to this builder. -/
def Builder.Reached (name : String) (b : Builder) : Prop :=
  ∃ steps, (Builder.fresh name).run steps = b

theorem Builder.Reached.step {name : String} {b b' : Builder} {s : Builder.Step}
    (h : b.Reached name) (hs : b.step s = .ok b') : b'.Reached name := by
  obtain ⟨steps, rfl⟩ := h
  refine ⟨steps ++ [s], ?_⟩
  rw [run_concat, hs]
  rfl

namespace Source

variable {d : Definition} {scope : Scope} {b b' : Builder} {name : String}

theorem reached_skeleton (d : Definition) : (skeleton d).Reached d.name := by
  refine ⟨d.params.map .param ++ d.sections.map fun s => .createBlock s.label, ?_⟩
  unfold Builder.run skeleton
  rw [List.foldl_append, List.foldl_map, List.foldl_map]
  rfl

theorem reached_addStatement {st : Statement} (hb : b.Reached name)
    (h : addStatement scope b st = .ok b') : b'.Reached name := by
  obtain ⟨step, -, h⟩ := bind_eq_ok h
  obtain ⟨built, hbuilt, h⟩ := bind_eq_ok h
  rw [perform, mapError_eq_ok_iff] at hbuilt
  have hreached := hb.step hbuilt
  cases hresult : st.result with
  | none =>
    rw [hresult] at h
    cases h
    exact hreached
  | some result =>
    rw [hresult] at h
    cases h
    exact hreached.step (s := .setName b.nextInst result) rfl

theorem reached_foldlM {ι : Type} {xs : List ι} {add : Builder → ι → Except SourceError Builder}
    (hadd : ∀ {b b' : Builder} {x : ι}, b.Reached name → add b x = .ok b' → b'.Reached name)
    (hb : b.Reached name) (h : xs.foldlM add b = .ok b') : b'.Reached name := by
  induction xs generalizing b with
  | nil =>
    cases h
    exact hb
  | cons x xs ih =>
    rw [List.foldlM_cons] at h
    obtain ⟨next, hnext, h⟩ := bind_eq_ok h
    exact ih (hadd hb hnext) h

theorem reached_addSection {s : Section} (hb : b.Reached name)
    (h : addSection scope b s = .ok b') : b'.Reached name := by
  obtain ⟨id, -, h⟩ := bind_eq_ok h
  obtain ⟨switched, hswitched, h⟩ := bind_eq_ok h
  rw [perform, mapError_eq_ok_iff] at hswitched
  exact reached_foldlM reached_addStatement (hb.step hswitched) h

/-- The function of a definition comes from a builder. -/
theorem Definition.built_of_resolve (h : d.resolve = .ok f) : f.Built := by
  obtain ⟨scope, -, h⟩ := bind_eq_ok h
  obtain ⟨b, hb, h⟩ := bind_eq_ok h
  obtain ⟨steps, rfl⟩ := reached_foldlM reached_addSection (reached_skeleton d) hb
  rw [mapError_eq_ok_iff] at h
  exact ⟨d.name, steps, h⟩

/-- Names that stand for instructions stand for those of the same function. -/
theorem Definition.operandsPlaced_of_resolve (h : d.resolve = .ok f)
    (hblocks : f.blocks.size < UInt32.size) (hinsts : f.insts.size ≤ UInt32.size) :
    f.OperandsPlaced := by
  have hlowers := lowers_of_resolve h hblocks hinsts
  intro inst hinst operand hoperand id hid
  obtain ⟨i, hi⟩ := Array.mem_iff_getElem?.1 hinst
  obtain ⟨hlt, -⟩ := Array.getElem?_eq_some_iff.1 hi
  rw [hlowers.size_insts] at hlt
  obtain ⟨inst', hinst', htranslates⟩ := hlowers.inst (List.getElem?_eq_getElem hlt)
  obtain rfl : inst = inst' := Option.some.inj (hi.symm.trans hinst')
  obtain ⟨term, -, hstands⟩ := exists_of_forall₂ htranslates.operands hoperand
  cases hstands with
  | @result j k st name hj hname =>
    obtain rfl : InstId.ofSlot j = id := Option.some.inj hid
    have hlt' := (List.getElem?_eq_some_iff.1 hj).1
    rw [← hlowers.size_insts] at hlt'
    rw [Function.inst?, InstId.slot_ofSlot (by omega), Array.getElem?_eq_getElem hlt']
    rfl
  | _ => cases hid

end Source

/-! ## Verdicts -/

namespace Pointer

variable {config : SolverConfig} {err : FlowError} (hf : f.Complete) (hplaced : f.OperandsPlaced)

include hf hplaced

/-- A node where the analysis fails lacks an operand, and the fault says which one. -/
theorem missing?_of_produce (hn : n ∈ (analysis.context f).graph.nodes) {m : PointsTo}
    {fault : FlowFault} (h : Solver.produce analysis (analysis.context f) n m = .error fault) :
    ∃ inst position, (analysis.context f).instruction? n = some inst ∧
      missing? inst = some position ∧ fault = .missingOperand inst.opcode inst.id position := by
  obtain ⟨inst, -, hinst⟩ := hf.exists_instruction? hn
  obtain ⟨hok, herror⟩ := produce_eq hf hplaced hinst m
  cases hmissing : missing? inst with
  | none =>
    obtain ⟨ys, hys⟩ := hok hmissing
    rw [hys] at h
    cases h
  | some position =>
    rw [herror position hmissing] at h
    exact ⟨inst, position, hinst, hmissing, (Except.error.inj h).symm⟩

theorem missing?_of_solve (h : solve analysis f config = .error err) :
    ∃ inst ∈ f.insts, ∃ position, missing? inst = some position ∧
      err = .malformed f.name (.missingOperand inst.opcode inst.id position) := by
  obtain ⟨st, node, rest, fault, hreach, hpending, hvisit, herr⟩ :=
    (finiteFacts _).solve_eq_error h
  have hnode := hreach.pending_subset (analysis.wellFormed_context f)
    (hpending ▸ List.mem_cons_self)
  obtain ⟨inst, position, hinst, hmissing, rfl⟩ :=
    missing?_of_produce hf hplaced hnode (Solver.visit_eq_error_iff.1 hvisit)
  exact ⟨inst, FlowGraph.mem_insts_of_instruction? hinst, position, hmissing, herr⟩

/-- The analysis refuses a complete function if and only if an instruction lacks an operand. -/
theorem solve_error_iff :
    (∃ err, solve analysis f config = .error err) ↔ ∃ inst ∈ f.insts, Lacks inst := by
  constructor
  · rintro ⟨err, h⟩
    obtain ⟨inst, hinst, position, hmissing, -⟩ := missing?_of_solve hf hplaced h
    exact ⟨inst, hinst, lacks_iff.2 ⟨position, hmissing⟩⟩
  · rintro ⟨inst, hmem, hlacks⟩
    obtain ⟨position, hmissing⟩ := lacks_iff.1 hlacks
    obtain ⟨n, hinst⟩ := hf.exists_node analysis.direction hmem
    cases hsolve : solve analysis f config with
    | error err => exact ⟨err, rfl⟩
    | ok s =>
      -- The analysis would have succeeded at the node of the instruction.
      obtain ⟨ys, hys⟩ := (solve_ok_iff regular (finiteFacts _)).1 ⟨s, hsolve⟩ n
        (FlowGraph.mem_nodes_of_instruction? hinst)
      rw [(produce_eq hf hplaced hinst _).2 position hmissing] at hys
      cases hys

/-- In the order first in, first out the error names the first instruction in block order that
    lacks an operand. -/
theorem first_missing?_of_solve (hfifo : config.order = .fifo)
    (h : solve analysis f config = .error err) :
    ∃ n inst position, (FlowGraph.build f .forward).instruction? f n = some inst ∧
      missing? inst = some position ∧
      (∀ k < n, ∀ other, (FlowGraph.build f .forward).instruction? f k = some other →
        ¬ Lacks other) ∧
      err = .malformed f.name (.missingOperand inst.opcode inst.id position) := by
  obtain ⟨n, hn, m, fault, hfault, herr, hbefore⟩ := (finiteFacts _).solve_eq_error_fifo hfifo h
  obtain ⟨inst, position, hinst, hmissing, rfl⟩ := missing?_of_produce hf hplaced hn hfault
  refine ⟨n, inst, position, hinst, hmissing, fun k hk other hother hlacks => ?_, herr⟩
  obtain ⟨gap, hgap⟩ := lacks_iff.1 hlacks
  obtain ⟨y, ys, hys⟩ := hbefore k (FlowGraph.mem_nodes_of_instruction? hother) hk
  rw [(produce_eq hf hplaced hother y).2 gap hgap] at hys
  cases hys

end Pointer

/-- What the analyses say about a function. Only the points-to analysis refuses it, and only for
    lack of operands. -/
structure Verdicts (f : Function) (config : SolverConfig) : Prop where
  /-- Liveness has an answer. -/
  liveness : ∃ s, solve Liveness.analysis f config = .ok s
  /-- Reaching definitions have an answer. -/
  reaching : ∃ s, solve Reaching.analysis f config = .ok s
  /-- Points-to has none if and only if an instruction has too few operands. -/
  pointer_iff : (∃ err, solve Pointer.analysis f config = .error err) ↔
    ∃ inst ∈ f.insts, Pointer.Lacks inst
  /-- The error carries the name of the function, and an instruction that lacks an operand. -/
  pointer_error : ∀ {err}, solve Pointer.analysis f config = .error err →
    ∃ inst ∈ f.insts, ∃ position, Pointer.missing? inst = some position ∧
      err = .malformed f.name (.missingOperand inst.opcode inst.id position)
  /-- If the node listed first comes first, it is the first such instruction in block order, with
      the first operand that is missing. -/
  pointer_first : config.order = .fifo → ∀ {err}, solve Pointer.analysis f config = .error err →
    ∃ n inst position, (FlowGraph.build f .forward).instruction? f n = some inst ∧
      Pointer.missing? inst = some position ∧
      (∀ k < n, ∀ other, (FlowGraph.build f .forward).instruction? f k = some other →
        ¬ Pointer.Lacks other) ∧
      err.message = "Malformed input in " ++ f.name ++ ": " ++ (inst.opcode.name ++ " " ++
        inst.id.text ++ " has no operand " ++ toString position)

/-- Which functions the analyses refuse, in either order of visits. The functions of a text are
    among those that this is about: they come from a builder, and their operands are placed. -/
theorem analyses_verdicts :
    (∀ {f : Function}, f.Built → f.blocks.size < UInt32.size → f.insts.size ≤ UInt32.size →
      f.OperandsPlaced → ∀ config, Verdicts f config) ∧
    ∀ {name text : String} {m : Module}, Module.parse name text = .ok m →
      ∀ f ∈ m.functions.values, f.blocks.size < UInt32.size → f.insts.size ≤ UInt32.size →
        f.Built ∧ f.OperandsPlaced := by
  constructor
  · intro f hbuilt hblocks hinsts hplaced config
    have hf := Function.complete_of_build hbuilt hblocks hinsts
    refine ⟨?_, ?_, Pointer.solve_error_iff hf hplaced, Pointer.missing?_of_solve hf hplaced, ?_⟩
    · refine (solve_ok_iff Liveness.regular
        (IndexSet.finiteFacts (Liveness.keeps_nodes _) rfl)).2 fun n hn => ?_
      exact Liveness.produce_ok hf hplaced hn _
    · refine (solve_ok_iff Reaching.regular
        (IndexSet.finiteFacts (Reaching.keeps_nodes _) rfl)).2 fun n hn => ?_
      exact Reaching.produce_ok hf hn _
    · intro hfifo err herr
      obtain ⟨n, inst, position, hinst, hmissing, hbefore, rfl⟩ :=
        Pointer.first_missing?_of_solve hf hplaced hfifo herr
      exact ⟨n, inst, position, hinst, hmissing, hbefore, rfl⟩
  · intro name text m hparse f hf hblocks hinsts
    obtain ⟨definitions, -, hresolve, -⟩ := Module.exists_of_parse hparse
    obtain ⟨d, -, hd⟩ := exists_of_forall₂ hresolve hf
    exact ⟨Source.Definition.built_of_resolve hd,
      Source.Definition.operandsPlaced_of_resolve hd hblocks hinsts⟩

/-- Builds a function with two gaps: a store without a pointer and, in a block that comes later but
    is filled earlier, a load without any operand. -/
def gapsSteps : List Builder.Step :=
  [.block "entry", .createBlock "tail", .switchTo (.ofNat 1), .append .load [], .ret none,
    .switchTo (.ofNat 0), .alloca, .append .store [.inst (.ofSlot 2)], .jump (.ofNat 1)]

/-- The function of `gapsSteps`. -/
def gaps : Function := ((Builder.fresh "gaps").run gapsSteps).function.linked

/-- For `gaps` the error names the store, which is the first one of the two in block order. -/
theorem analyses_verdicts_gaps :
    gaps.Built ∧ gaps.OperandsPlaced ∧ Verdicts gaps { order := .lifo } ∧
      ∃ err, solve Pointer.analysis gaps {} = .error err ∧
        err.message = "Malformed input in gaps: store i3 has no operand 1" := by
  have hbuilt : gaps.Built :=
    ⟨"gaps", gapsSteps, Builder.build_eq_ok_iff.2 ⟨by decide +kernel, rfl⟩⟩
  have hblocks : gaps.blocks.size < UInt32.size := by decide +kernel
  have hinsts : gaps.insts.size ≤ UInt32.size := by decide +kernel
  have hplaced : gaps.OperandsPlaced := by
    unfold Function.OperandsPlaced
    decide +kernel
  have hverdicts := analyses_verdicts.1 hbuilt hblocks hinsts hplaced
  refine ⟨hbuilt, hplaced, hverdicts _, ?_⟩
  have hlacks : ∃ inst ∈ gaps.insts, Pointer.Lacks inst := by
    unfold Pointer.Lacks
    decide +kernel
  obtain ⟨err, herr⟩ := (hverdicts {}).pointer_iff.2 hlacks
  obtain ⟨n, inst, position, hinst, hmissing, hbefore, hmessage⟩ :=
    (hverdicts {}).pointer_first rfl herr
  refine ⟨err, herr, ?_⟩
  have hstore : (FlowGraph.build gaps .forward).instruction? gaps 2 =
      some ⟨.ofSlot 3, none, .store, [.inst (.ofSlot 2)], [], [], .ofNat 0⟩ := by decide +kernel
  have hfull : ∀ k < 2, ((FlowGraph.build gaps .forward).instruction? gaps k).bind
      Pointer.missing? = none := by decide +kernel
  have hgap : ((FlowGraph.build gaps .forward).instruction? gaps n).bind Pointer.missing? =
      some position := by
    rw [hinst]
    exact hmissing
  obtain rfl : n = 2 := by
    rcases Nat.lt_trichotomy n 2 with hlt | heq | hgt
    · rw [hfull n hlt] at hgap
      cases hgap
    · exact heq
    · exact absurd (.inr (.inl ⟨rfl, by decide⟩)) (hbefore 2 hgt _ hstore)
  obtain rfl : position = 1 := by
    rw [hstore] at hgap
    exact (Option.some.inj hgap).symm
  rw [hstore] at hinst
  cases hinst
  rw [hmessage]
  decide +kernel

end FlowFacts
