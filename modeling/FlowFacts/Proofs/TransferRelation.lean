import FlowFacts.Analysis.Liveness
import FlowFacts.Analysis.Pointer
import FlowFacts.Analysis.Reaching
import FlowFacts.Proofs.ContextQueries
import FlowFacts.Proofs.FactOrder

/-!
# Relations that the analyses respect

A transfer function looks at its input only through the operations on facts. So it respects every
relation that these operations respect: from related inputs it fails with the same fault, or it
produces related values for all outgoing edges. In particular it fails or succeeds whatever the
input is.

Main results: `Liveness.transfer_agree`, `Reaching.transfer_agree`, `Pointer.transfer_agree`.
-/

namespace FlowFacts

/-- One value for each edge on either side, related one by one. -/
def PerEdge {α : Type} (R : α → α → Prop) (outs : List Edge) (xs ys : List α) : Prop :=
  xs.length = outs.length ∧ List.Forall₂ R xs ys

theorem perEdge_replicate {α : Type} {R : α → α → Prop} (outs : List Edge) {x y : α} (h : R x y) :
    PerEdge R outs (List.replicate outs.length x) (List.replicate outs.length y) := by
  refine ⟨List.length_replicate, ?_⟩
  induction outs with
  | nil => exact .nil
  | cons e outs ih => exact .cons h ih

/-! ## Index sets -/

/-- A relation between index sets that adding one of the indices in `V` and taking out any index
    respect. -/
structure IndexSet.Kept (V : Nat → Prop) (R : IndexSet → IndexSet → Prop) : Prop where
  insert : ∀ {i : Nat} {s t : IndexSet}, V i → R s t → R (s.insert i) (t.insert i)
  erase : ∀ (i : Nat) {s t : IndexSet}, R s t → R (s.erase i) (t.erase i)

section IndexSets

variable {ctx : FlowContext} {V : Nat → Prop} {R : IndexSet → IndexSet → Prop}
  (hR : IndexSet.Kept V R) (hV : ∀ i ∈ ctx.graph.nodes, V i)

include hR hV

namespace Liveness

theorem use_agree {s t : IndexSet} (hst : R s t) (operand : Operand) :
    Agree R (use ctx s operand) (use ctx t operand) := by
  refine .bind_same fun tracked htracked => ?_
  cases tracked with
  | none => exact .ok hst
  | some i => exact .ok (hR.insert (hV i (FlowContext.tracked_mem_nodes htracked)) hst)

theorem crossMerge_agree {s t : IndexSet} (hst : R s t) (pred : BlockId)
    (merge : Nat × Instruction) :
    Agree R (crossMerge ctx pred s merge) (crossMerge ctx pred t merge) := by
  have herase := hR.erase merge.1 hst
  unfold crossMerge
  cases merge.2.incomingFor? pred with
  | none => exact .ok herase
  | some operand => exact use_agree hR hV herase operand

theorem crossGroup_agree {s t : IndexSet} (hst : R s t) (group : List (Nat × Instruction))
    (edge : Edge) : Agree R (crossGroup ctx group s edge) (crossGroup ctx group t edge) := by
  unfold crossGroup
  cases ctx.blockOf? edge.target with
  | none => exact .error _
  | some pred => exact .foldlM hst fun merge _ s t hst => crossMerge_agree hR hV hst pred merge

theorem cross_agree {s t : IndexSet} (hst : R s t) (inst : Instruction) (index : Nat) :
    Agree R (cross ctx inst index s) (cross ctx inst index t) := by
  unfold cross
  refine .foldlM ?_ fun operand _ s t hst => use_agree hR hV hst operand
  split
  · exact hR.erase index hst
  · exact hst

/-- Liveness respects every relation that adding and taking out indices respect. -/
theorem transfer_agree {s t : IndexSet} (hst : R s t) (inst : Instruction) (index : Nat)
    (outs : List Edge) :
    Agree (PerEdge R outs) (transfer ctx inst index s outs) (transfer ctx inst index t outs) := by
  unfold transfer
  split
  · refine .bind_same fun head _ => ?_
    cases head with
    | false => exact .ok (perEdge_replicate outs hst)
    | true =>
      refine .bind_same fun group _ => ?_
      exact .mapM fun edge _ => crossGroup_agree hR hV hst group edge
  · refine .bind (cross_agree hR hV hst inst index) fun s t hst => ?_
    exact .ok (perEdge_replicate outs hst)

end Liveness

namespace Reaching

theorem extend_agree {s t : IndexSet} (hst : R s t) (inst : Instruction) {index : Nat}
    (hindex : V index) : Agree R (extend ctx inst index s) (extend ctx inst index t) := by
  unfold extend
  split
  · refine .bind_same fun head _ => ?_
    cases head with
    | false => exact .ok hst
    | true =>
      refine .bind_same fun group hgroup => .ok ?_
      have hnodes := FlowContext.mergeGroup_mem_nodes hgroup
      clear hgroup
      induction group generalizing s t with
      | nil => exact hst
      | cons merge group ih =>
        rw [List.forall_mem_cons] at hnodes
        exact ih (hR.insert (hV _ hnodes.1) hst) hnodes.2
  · split
    · exact .ok (hR.insert hindex hst)
    · exact .ok hst

/-- Reaching definitions respect every relation that adding indices respects. -/
theorem transfer_agree {s t : IndexSet} (hst : R s t) (inst : Instruction) {index : Nat}
    (hindex : V index) (outs : List Edge) :
    Agree (PerEdge R outs) (transfer ctx inst index s outs) (transfer ctx inst index t outs) := by
  refine .bind (extend_agree hR hV hst inst hindex) fun s t hst => ?_
  exact .ok (perEdge_replicate outs hst)

end Reaching

end IndexSets

/-! ## Points-to maps -/

/-- A relation between points-to maps that the rules respect, if they write to values in `V` and
    allocate objects in `A`. -/
structure PointsTo.Kept (A V : Nat → Prop) (R : PointsTo → PointsTo → Prop) : Prop where
  alloca : ∀ {i : Nat} {m n : PointsTo}, V i → A i → R m n →
    R (m.add (.value i) (.memory i)) (n.add (.value i) (.memory i))
  aliasOf : ∀ {i : Nat} {m n : PointsTo}, V i → R m n → ∀ source : Nat,
    R (m.aliasOf (.value i) (.value source)) (n.aliasOf (.value i) (.value source))
  absorb : ∀ {i : Nat} {m n : PointsTo}, V i → R m n → ∀ source : Nat,
    R (m.absorb (.value i) (.value source)) (n.absorb (.value i) (.value source))
  load : ∀ {i : Nat} {m n : PointsTo}, V i → R m n → ∀ pointer : Nat,
    R (Pointer.load m i pointer) (Pointer.load n i pointer)
  store : ∀ {m n : PointsTo}, R m n → ∀ value pointer : Nat,
    R (Pointer.store m value pointer) (Pointer.store n value pointer)

namespace Pointer

variable {ctx : FlowContext} {A V : Nat → Prop} {R : PointsTo → PointsTo → Prop}
  (hR : PointsTo.Kept A V R) (hV : ∀ i ∈ ctx.graph.nodes, V i)

include hR

theorem absorbValue_rel {m n : PointsTo} (hmn : R m n) {i : Nat} (hi : V i) (source : Option Nat) :
    R (absorbValue m (.value i) source) (absorbValue n (.value i) source) := by
  cases source with
  | none => exact hmn
  | some j => exact hR.absorb hi hmn j

theorem crossMerge_agree {m n : PointsTo} (hmn : R m n) {merge : Nat × Instruction}
    (hmerge : V merge.1) : Agree R (crossMerge ctx m merge) (crossMerge ctx n merge) :=
  .foldlM hmn fun _ _ _ _ hmn => .bind_same fun source _ =>
    .ok (absorbValue_rel hR hmn hmerge source)

include hV

theorem apply_agree {m n : PointsTo} (hmn : R m n) (inst : Instruction) {index : Nat}
    (hindex : V index) (halloca : inst.opcode = .alloca → A index) :
    Agree R (apply ctx inst index m) (apply ctx inst index n) := by
  unfold apply
  cases hop : inst.opcode with
  | alloca => exact .ok (hR.alloca hindex (halloca hop) hmn)
  | bitcast | getelementptr =>
    refine .bind_same fun source _ => ?_
    cases source with
    | none => exact .ok hmn
    | some source => exact .ok (hR.aliasOf hindex hmn source)
  | load =>
    refine .bind_same fun pointer _ => ?_
    cases pointer with
    | none => exact .ok hmn
    | some pointer => exact .ok (hR.load hindex hmn pointer)
  | store =>
    refine .bind_same fun value _ => .bind_same fun pointer _ => ?_
    cases value with
    | none => exact .ok hmn
    | some value =>
      cases pointer with
      | none => exact .ok hmn
      | some pointer => exact .ok (hR.store hmn value pointer)
  | select =>
    refine .bind_same fun first _ => .bind_same fun second _ => .ok ?_
    exact absorbValue_rel hR (absorbValue_rel hR hmn hindex first) hindex second
  | phi =>
    refine .bind_same fun group hgroup => .foldlM hmn fun merge hmerge m n hmn => ?_
    exact crossMerge_agree hR hmn (hV _ (FlowContext.mergeGroup_mem_nodes hgroup merge hmerge))
  | _ => exact .ok hmn

/-- The points-to analysis respects every relation that its rules respect. -/
theorem transfer_agree {m n : PointsTo} (hmn : R m n) (inst : Instruction) {index : Nat}
    (hindex : V index) (halloca : inst.opcode = .alloca → A index) (outs : List Edge) :
    Agree (PerEdge R outs) (transfer ctx inst index m outs) (transfer ctx inst index n outs) := by
  have happly := apply_agree hR hV hmn inst hindex halloca
  unfold transfer
  split
  · refine .bind_same fun head _ => ?_
    cases head with
    | false => exact .ok (perEdge_replicate outs hmn)
    | true => exact .bind happly fun m n hmn => .ok (perEdge_replicate outs hmn)
  · exact .bind happly fun m n hmn => .ok (perEdge_replicate outs hmn)

end Pointer

end FlowFacts
