import FlowFacts.Proofs.PointerRules
import FlowFacts.Proofs.SolverRun
import FlowFacts.Proofs.TransferRelation

/-!
# Laws of the analyses

Liveness, reaching definitions and points-to are regular: from larger inputs they produce larger
values, and whether they fail does not depend on the input. They also stay within bounds: index
sets hold nodes of the graph only, and points-to maps have the shape that their rules keep.

Main results:

* `Liveness.regular`, `Reaching.regular`, `Pointer.regular`.
* `Analysis.Regular.produce_ok`: a regular analysis that succeeds at a node for one input succeeds
  for every input.
* `Liveness.keeps_nodes`, `Reaching.keeps_nodes`, `Pointer.keeps_shaped`.
-/

namespace FlowFacts

/-! ## Regular analyses -/

section Regular

variable {α : Type} [Domain α] {a : Analysis α}

/-- From larger inputs the analysis produces larger values, one for each edge, or it fails with the
    same fault. -/
def Analysis.Regular (a : Analysis α) : Prop :=
  ∀ (ctx : FlowContext) (inst : Instruction) (node : Nat) (outs : List Edge) {x y : α},
    Domain.LE x y → Agree (PerEdge Domain.LE outs) (a.transfer ctx inst node x outs)
      (a.transfer ctx inst node y outs)

namespace Analysis.Regular

theorem monotone (h : a.Regular) : a.Monotone := by
  intro ctx inst node outs x y xs ys hxy hxs hys i u v hu hv
  obtain ⟨-, hle⟩ := (h ctx inst node outs hxy).rel hxs hys
  obtain ⟨hi, rfl⟩ := List.getElem?_eq_some_iff.1 hu
  obtain ⟨hi', rfl⟩ := List.getElem?_eq_some_iff.1 hv
  exact hle.get hi hi'

theorem produce_agree (h : a.Regular) (ctx : FlowContext) (node : Nat) {x y : α}
    (hxy : Domain.LE x y) :
    Agree (PerEdge Domain.LE (ctx.graph.outgoing node)) (Solver.produce a ctx node x)
      (Solver.produce a ctx node y) := by
  unfold Solver.produce
  cases ctx.instruction? node with
  | none => exact .error _
  | some inst =>
    refine .bind (h ctx inst node _ hxy) fun xs ys hle => ?_
    rw [if_pos hle.1, if_pos (hle.2.length_eq ▸ hle.1)]
    exact .ok hle

/-- Whether a regular analysis succeeds at a node does not depend on what is known in front of it,
    since the least input lies below every other one. -/
theorem produce_ok [LawfulDomain α] (h : a.Regular) {ctx : FlowContext} {node : Nat} {x : α}
    {xs : List α} (hxs : Solver.produce a ctx node x = .ok xs) (y : α) :
    ∃ ys, Solver.produce a ctx node y = .ok ys := by
  have hx := (h.produce_agree ctx node (Domain.bottom_le x)).exists_ok_iff
  have hy := (h.produce_agree ctx node (Domain.bottom_le y)).exists_ok_iff
  exact hy.1 (hx.2 ⟨xs, hxs⟩)

end Analysis.Regular

end Regular

/-! ## Bounds -/

/-- What holds of the initial and the least value, and stays true under joins and the analysis. -/
structure Analysis.Keeps {α : Type} [Domain α] (a : Analysis α) (ctx : FlowContext)
    (Holds : α → Prop) : Prop where
  initial : Holds a.initial
  bottom : Holds Domain.bottom
  join : ∀ {x y : α}, Holds x → Holds y → Holds (Domain.join x y)
  transfer : ∀ {inst : Instruction} {node : Nat} {outs : List Edge} {x : α} {xs : List α},
    ctx.instruction? node = some inst → Holds x → a.transfer ctx inst node x outs = .ok xs →
    ∀ y ∈ xs, Holds y

/-- A property of single values that the analysis respects holds of all it produces. -/
theorem PerEdge.forall_mem {α : Type} {P : α → Prop} {outs : List Edge} {xs : List α}
    (h : PerEdge (fun x _ => P x) outs xs xs) : ∀ x ∈ xs, P x := by
  rw [PerEdge, List.forall₂_same] at h
  exact h.2

/-! ## Index sets -/

namespace IndexSet

theorem kept_le : Kept (fun _ => True) Domain.LE where
  insert _ h := by
    rw [le_iff] at h ⊢
    intro j hj
    rw [SortedSet.mem_insert] at hj ⊢
    exact hj.imp_right (h j)
  erase i {s t} h := by
    rw [le_iff] at h ⊢
    intro j hj
    rw [SortedSet.mem_erase] at hj ⊢
    exact hj.imp_left (h j)

theorem kept_forall_mem (V : Nat → Prop) : Kept V fun s _ => ∀ i ∈ s, V i where
  insert hi h j hj := (SortedSet.mem_insert.1 hj).elim (fun heq => heq ▸ hi) (h j)
  erase _ _ _ h j hj := h j (SortedSet.mem_erase.1 hj).1

/-- An analysis of index sets keeps to a set of indices if what it produces does. -/
theorem keeps_of_transfer {a : Analysis IndexSet} {ctx : FlowContext} {V : Nat → Prop}
    (hinitial : a.initial = .empty)
    (htransfer : ∀ {inst : Instruction} {node : Nat} {outs : List Edge} {s : IndexSet},
      ctx.instruction? node = some inst → (∀ i ∈ s, V i) →
      Agree (PerEdge (fun s _ => ∀ i ∈ s, V i) outs) (a.transfer ctx inst node s outs)
        (a.transfer ctx inst node s outs)) :
    a.Keeps ctx fun s => ∀ i ∈ s, V i where
  initial i hi := absurd (hinitial ▸ hi) (SortedSet.not_mem_empty i)
  bottom i hi := absurd hi (SortedSet.not_mem_empty i)
  join hs ht i hi := (SortedSet.mem_union.1 hi).elim (hs i) (ht i)
  transfer hinst hs hxs := ((htransfer hinst hs).rel hxs hxs).forall_mem

end IndexSet

theorem Liveness.regular : Liveness.analysis.Regular := by
  intro ctx inst node outs s t hst
  exact transfer_agree IndexSet.kept_le (fun _ _ => trivial) hst inst node outs

theorem Reaching.regular : Reaching.analysis.Regular := by
  intro ctx inst node outs s t hst
  exact transfer_agree IndexSet.kept_le (fun _ _ => trivial) hst inst trivial outs

theorem Liveness.keeps_nodes (ctx : FlowContext) :
    Liveness.analysis.Keeps ctx fun s => ∀ i ∈ s, i ∈ ctx.graph.nodes := by
  refine IndexSet.keeps_of_transfer rfl ?_
  intro inst node outs s _ hs
  exact transfer_agree (IndexSet.kept_forall_mem _) (fun _ hi => hi) hs inst node outs

theorem Reaching.keeps_nodes (ctx : FlowContext) :
    Reaching.analysis.Keeps ctx fun s => ∀ i ∈ s, i ∈ ctx.graph.nodes := by
  refine IndexSet.keeps_of_transfer rfl ?_
  intro inst node outs s hinst hs
  have hnode := FlowGraph.mem_nodes_of_instruction? hinst
  exact transfer_agree (IndexSet.kept_forall_mem _) (fun _ hi => hi) hs inst hnode outs

/-! ## Points-to maps -/

namespace PointsTo

theorem kept_le : Kept (fun _ => True) (fun _ => True) Domain.LE where
  alloca _ _ h := add_mono h _ _
  aliasOf _ h _ := aliasOf_mono h _ _
  absorb _ h _ := absorb_mono h _ _
  load _ h := Pointer.load_mono h _
  store h := Pointer.store_mono h

theorem kept_shaped (A V : Nat → Prop) : Kept A V fun m _ => m.Shaped A V where
  alloca {i _ _} hi ha h := h.add (l := .value i) hi ha
  aliasOf hi h _ := h.aliasOf hi
  absorb hi h _ := h.absorb hi
  load hi h := h.load hi
  store h := h.store

end PointsTo

theorem Pointer.regular : Pointer.analysis.Regular := by
  intro ctx inst node outs m n hmn
  exact transfer_agree PointsTo.kept_le (fun _ _ => trivial) hmn inst trivial (fun _ => trivial) outs

/-- The node at an index allocates memory. -/
def FlowContext.Allocates (ctx : FlowContext) (index : Nat) : Prop :=
  ∃ inst, ctx.instruction? index = some inst ∧ inst.opcode = .alloca

theorem Pointer.keeps_shaped (ctx : FlowContext) :
    Pointer.analysis.Keeps ctx (PointsTo.Shaped ctx.Allocates (· ∈ ctx.graph.nodes)) where
  initial := .bottom _ _
  bottom := .bottom _ _
  join := .join
  transfer {inst node outs m xs} hinst hm hxs := by
    have hnode := FlowGraph.mem_nodes_of_instruction? hinst
    have hagree := transfer_agree (m := m) (n := m) (PointsTo.kept_shaped ctx.Allocates _)
      (fun _ hi => hi) hm inst hnode (fun halloca => ⟨inst, hinst, halloca⟩) outs
    exact (hagree.rel hxs hxs).forall_mem

end FlowFacts
