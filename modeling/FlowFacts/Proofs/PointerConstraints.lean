import FlowFacts.Proofs.ContextQueries
import FlowFacts.Proofs.FactPaths
import FlowFacts.Proofs.Termination

/-!
# The constraints behind points-to facts

Each instruction asks something of the facts around it: a load, for instance, that its result may
point to whatever the objects behind its pointer may point to. The answers of the solver meet all
of these constraints, also for instructions that refer to themselves. For most rules this is seen
from one visit. A load through its own result is the exception: one more visit could find more
targets, were it not that nothing in a whole run gives such a result its first target.

Main results:

* `Pointer.apply_cases`: what an instruction can do to a map.
* `Pointer.says_apply_value`: only an instruction and the merges of its group give targets to
  results.
* `Pointer.satisfies_of_apply`: the constraints after one visit.
* `not_says_selfLoad`: nothing is known of a load through its own result.
* `solve_satisfies`: the constraints hold in every answer.
-/

namespace FlowFacts

namespace Pointer

variable {ctx : FlowContext} {inst : Instruction} {n i : Nat} {m m' : PointsTo} {k l : Location}
  {x : Option Location} {group : List (Nat × Instruction)}

/-! ## Merges and selections -/

theorem says_absorbValue {source : Option Nat} :
    (absorbValue m l source).Says k x ↔
      m.Says k x ∨ (k = l ∧ ∃ j, source = some j ∧ m.Says (.value j) x) := by
  cases source with
  | none => simp [absorbValue]
  | some j => simp [absorbValue, PointsTo.says_absorb]

/-- A merge keeps what was said, says more of its own result only, and says of it whatever was said
    of one of its operands. -/
theorem crossMerge_spec {merge : Nat × Instruction} (h : crossMerge ctx m merge = .ok m') :
    (∀ k x, m.Says k x → m'.Says k x) ∧
    (∀ k x, m'.Says k x → m.Says k x ∨ k = .value merge.1) ∧
    ∀ p ∈ merge.2.incomingPairs, ∀ v, ctx.Refers p.1 v → ∀ x, m.Says (.value v) x →
      m'.Says (.value merge.1) x := by
  unfold crossMerge at h
  generalize merge.2.incomingPairs = pairs at h ⊢
  induction pairs generalizing m with
  | nil =>
    cases h
    exact ⟨fun _ _ => id, fun _ _ => .inl, by simp⟩
  | cons p pairs ih =>
    rw [List.foldlM_cons] at h
    obtain ⟨next, hnext, h⟩ := bind_eq_ok h
    obtain ⟨found, hfound, hnext⟩ := bind_eq_ok hnext
    cases hnext
    obtain ⟨hkeep, horigin, habsorb⟩ := ih h
    have hgrow : ∀ k x, m.Says k x → (absorbValue m (.value merge.1) found).Says k x :=
      fun k x hx => says_absorbValue.2 (.inl hx)
    refine ⟨fun k x hx => hkeep k x (hgrow k x hx), fun k x hx => ?_, fun q hq v hv x hx => ?_⟩
    · rcases horigin k x hx with hx | hk
      · exact (says_absorbValue.1 hx).imp_right And.left
      · exact .inr hk
    · rcases List.mem_cons.1 hq with rfl | hq
      · have hv := (FlowContext.refers_iff hfound).1 hv
        exact hkeep _ x (says_absorbValue.2 (.inr ⟨rfl, v, hv, hx⟩))
      · exact habsorb q hq v hv x (hgrow _ x hx)

/-- The same of a whole group: results of earlier merges are seen by later ones, which only adds to
    what is said. -/
theorem crossMerges_spec (h : group.foldlM (crossMerge ctx) m = .ok m') :
    (∀ k x, m.Says k x → m'.Says k x) ∧
    (∀ k x, m'.Says k x → m.Says k x ∨ ∃ merge ∈ group, k = .value merge.1) ∧
    ∀ merge ∈ group, ∀ p ∈ merge.2.incomingPairs, ∀ v, ctx.Refers p.1 v →
      ∀ x, m.Says (.value v) x → m'.Says (.value merge.1) x := by
  induction group generalizing m with
  | nil =>
    cases h
    simp
  | cons first group ih =>
    rw [List.foldlM_cons] at h
    obtain ⟨next, hnext, h⟩ := bind_eq_ok h
    obtain ⟨hkeep₁, horigin₁, habsorb₁⟩ := crossMerge_spec hnext
    obtain ⟨hkeep₂, horigin₂, habsorb₂⟩ := ih h
    refine ⟨fun k x hx => hkeep₂ k x (hkeep₁ k x hx), fun k x hx => ?_,
      fun merge hmerge p hp v hv x hx => ?_⟩
    · rcases horigin₂ k x hx with hx | ⟨merge, hmerge, hk⟩
      · exact (horigin₁ k x hx).imp_right fun hk => ⟨first, List.mem_cons_self, hk⟩
      · exact .inr ⟨merge, List.mem_cons_of_mem first hmerge, hk⟩
    · rcases List.mem_cons.1 hmerge with rfl | hmerge
      · exact hkeep₂ _ x (habsorb₁ p hp v hv x hx)
      · exact habsorb₂ merge hmerge p hp v hv x (hkeep₁ _ x hx)

/-! ## Single instructions -/

theorem trackedOperand_of_operandAt {position : Nat} (h : ctx.OperandAt inst position i) :
    trackedOperand ctx inst position = .ok (some i) := by
  obtain ⟨operand, hoperand, hrefers⟩ := h
  unfold trackedOperand FlowContext.operand
  rw [hoperand]
  exact FlowContext.tracked_of_refers hrefers

theorem operandAt_of_trackedOperand {position : Nat}
    (h : trackedOperand ctx inst position = .ok (some i)) : ctx.OperandAt inst position i := by
  obtain ⟨operand, hoperand, h⟩ := bind_eq_ok h
  unfold FlowContext.operand at hoperand
  split at hoperand
  · next found hfound =>
    cases hoperand
    exact ⟨operand, hfound, (FlowContext.refers_iff h).2 rfl⟩
  · cases hoperand

/-- What an instruction can do to a map. -/
theorem apply_cases (h : apply ctx inst n m = .ok m') :
    m' = m ∨
    (inst.opcode = .alloca ∧ m' = m.add (.value n) (.memory n)) ∨
    (inst.opcode.isAddressCast = true ∧ ∃ s, m' = m.aliasOf (.value n) (.value s)) ∨
    (inst.opcode = .load ∧ ∃ p, m' = load m n p) ∨
    (inst.opcode = .store ∧ ∃ v p, ctx.OperandAt inst 1 p ∧ m' = store m v p) ∨
    (inst.opcode = .select ∧
      ∃ c d, m' = absorbValue (absorbValue m (.value n) c) (.value n) d) ∨
    (inst.opcode = .phi ∧ ∃ group, ctx.mergeGroup inst.block = .ok group ∧
      group.foldlM (crossMerge ctx) m = .ok m') := by
  unfold apply at h
  cases hop : inst.opcode with
  | alloca =>
    simp only [hop] at h
    cases h
    exact .inr (.inl ⟨rfl, rfl⟩)
  | bitcast | getelementptr =>
    simp only [hop] at h
    obtain ⟨found, -, h⟩ := bind_eq_ok h
    cases found with
    | none => cases h; exact .inl rfl
    | some s => cases h; exact .inr (.inr (.inl ⟨rfl, s, rfl⟩))
  | load =>
    simp only [hop] at h
    obtain ⟨found, -, h⟩ := bind_eq_ok h
    cases found with
    | none => cases h; exact .inl rfl
    | some p => cases h; exact .inr (.inr (.inr (.inl ⟨rfl, p, rfl⟩)))
  | store =>
    simp only [hop] at h
    obtain ⟨value, -, h⟩ := bind_eq_ok h
    obtain ⟨pointer, hpointer, h⟩ := bind_eq_ok h
    cases value with
    | none => cases h; exact .inl rfl
    | some v =>
      cases pointer with
      | none => cases h; exact .inl rfl
      | some p =>
        cases h
        have hp := operandAt_of_trackedOperand hpointer
        exact .inr (.inr (.inr (.inr (.inl ⟨rfl, v, p, hp, rfl⟩))))
  | select =>
    simp only [hop] at h
    obtain ⟨c, -, h⟩ := bind_eq_ok h
    obtain ⟨d, -, h⟩ := bind_eq_ok h
    cases h
    exact .inr (.inr (.inr (.inr (.inr (.inl ⟨rfl, c, d, rfl⟩)))))
  | phi =>
    simp only [hop] at h
    obtain ⟨group, hgroup, h⟩ := bind_eq_ok h
    exact .inr (.inr (.inr (.inr (.inr (.inr ⟨rfl, group, hgroup, h⟩)))))
  | _ =>
    simp only [hop] at h
    cases h
    exact .inl rfl

/-- An instruction adds targets only to its own result, to memory, and to the merges of its
    group. -/
theorem says_apply_value {A V : Nat → Prop} (h : apply ctx inst n m = .ok m')
    (hm : m.Shaped A V) (hin : i ≠ n)
    (hmerge : ∀ {group}, ctx.mergeGroup inst.block = .ok group → i ∉ group.map Prod.fst)
    (hx : m'.Says (.value i) x) : m.Says (.value i) x := by
  have hne : Location.value i ≠ .value n := by simpa using hin
  rcases apply_cases h with rfl | ⟨-, rfl⟩ | ⟨-, s, rfl⟩ | ⟨-, p, rfl⟩ | ⟨-, v, p, -, rfl⟩ |
    ⟨-, c, d, rfl⟩ | ⟨-, group, hgroup, hfold⟩
  · exact hx
  · exact (PointsTo.says_add.1 hx).resolve_right fun hk => hne hk.1
  · rwa [PointsTo.says_aliasOf, if_neg hne] at hx
  · exact (says_load.1 hx).resolve_right fun hk => hne hk.1
  · -- The slots of a store are memory objects.
    refine (says_store.1 hx).resolve_right ?_
    rintro ⟨hslot, -⟩
    obtain ⟨j, -, hj⟩ := hm.target hslot
    cases hj
  · rcases says_absorbValue.1 hx with hx | ⟨hk, -⟩
    · exact (says_absorbValue.1 hx).resolve_right fun hk => hne hk.1
    · exact absurd hk hne
  · refine ((crossMerges_spec hfold).2.1 _ x hx).resolve_right ?_
    rintro ⟨merge, hmem, hk⟩
    exact hmerge hgroup (List.mem_map.2 ⟨merge, hmem, (Location.value.inj hk).symm⟩)

/-- On every outgoing edge of a node the same map is produced. Of a group of merges only the head
    acts. -/
theorem transfer_eq_ok {outs : List Edge} {xs : List PointsTo}
    (h : transfer ctx inst n m outs = .ok xs) :
    ∃ m', xs = List.replicate outs.length m' ∧
      ((inst.isMerge = true ∧ ¬ ctx.IsHead inst ∧ m' = m) ∨
        ((inst.isMerge = false ∨ ctx.IsHead inst) ∧ apply ctx inst n m = .ok m')) := by
  unfold transfer at h
  split_ifs at h with hmerge
  · obtain ⟨head, hhead, h⟩ := bind_eq_ok h
    have hiff := FlowContext.isHead_iff hhead
    cases head with
    | false =>
      cases h
      exact ⟨m, rfl, .inl ⟨hmerge, by simp [hiff], rfl⟩⟩
    | true =>
      obtain ⟨m', hm', h⟩ := bind_eq_ok h
      cases h
      exact ⟨m', rfl, .inr ⟨.inr (hiff.2 rfl), hm'⟩⟩
  · obtain ⟨m', hm', h⟩ := bind_eq_ok h
    cases h
    exact ⟨m', rfl, .inr ⟨.inl (by simpa using hmerge), hm'⟩⟩

/-! ## Constraints -/

/-- What an instruction at node `n` asks of the facts in front of it and behind it. -/
structure Satisfies (ctx : FlowContext) (inst : Instruction) (n : Nat) (before after : PointsTo) :
    Prop where
  /-- The result of an allocation points to its object. -/
  alloca : inst.opcode = .alloca → .memory n ∈ after.targets (.value n)
  /-- The result of a cast has the targets of its operand. -/
  cast : inst.opcode.isAddressCast = true → ∀ s, ctx.OperandAt inst 0 s →
    after.targets (.value n) = after.targets (.value s)
  /-- The result of a load has the targets of each target of the pointer. -/
  load : inst.opcode = .load → ∀ p, ctx.OperandAt inst 0 p → ∀ o ∈ after.targets (.value p),
    ∀ t ∈ after.targets o, t ∈ after.targets (.value n)
  /-- Each target of the pointer of a store has the targets of the stored value. -/
  store : inst.opcode = .store → ∀ v p, ctx.OperandAt inst 0 v → ctx.OperandAt inst 1 p →
    ∀ o ∈ after.targets (.value p), ∀ t ∈ after.targets (.value v), t ∈ after.targets o
  /-- The result of a selection has the targets of both candidates. -/
  select : inst.opcode = .select → ∀ position, position = 1 ∨ position = 2 →
    ∀ c, ctx.OperandAt inst position c →
      ∀ t ∈ after.targets (.value c), t ∈ after.targets (.value n)
  /-- Behind the head of a group each merge has the targets that its operands have in front. -/
  merge : ctx.IsHead inst → ∃ group, ctx.mergeGroup inst.block = .ok group ∧
    ∀ merge ∈ group, ∀ p ∈ merge.2.incomingPairs, ∀ v, ctx.Refers p.1 v →
      ∀ t ∈ before.targets (.value v), t ∈ after.targets (.value merge.1)

theorem opcode_of_isMerge (h : inst.isMerge = true) : inst.opcode = .phi := by
  unfold Instruction.isMerge at h
  exact eq_of_beq h

/-- The rules for casts, loads and stores, where the operands refer to instructions. -/
theorem apply_cast (h : apply ctx inst n m = .ok m') (hop : inst.opcode.isAddressCast = true)
    (hs : ctx.OperandAt inst 0 i) : m' = m.aliasOf (.value n) (.value i) := by
  unfold apply at h
  have hs := trackedOperand_of_operandAt hs
  cases hopcode : inst.opcode with
  | bitcast | getelementptr =>
    simp only [hopcode, hs] at h
    exact (Except.ok.inj h).symm
  | _ => simp [hopcode, Opcode.isAddressCast] at hop

theorem apply_load (h : apply ctx inst n m = .ok m') (hop : inst.opcode = .load)
    (hp : ctx.OperandAt inst 0 i) : m' = Pointer.load m n i := by
  unfold apply at h
  simp only [hop, trackedOperand_of_operandAt hp] at h
  exact (Except.ok.inj h).symm

theorem apply_store {v p : Nat} (h : apply ctx inst n m = .ok m') (hop : inst.opcode = .store)
    (hv : ctx.OperandAt inst 0 v) (hp : ctx.OperandAt inst 1 p) : m' = Pointer.store m v p := by
  unfold apply at h
  simp only [hop, trackedOperand_of_operandAt hv, trackedOperand_of_operandAt hp] at h
  exact (Except.ok.inj h).symm

/-- After a load the pointer and the objects behind it have the targets that they had before, so
    the constraint holds. The result itself must not be the pointer. -/
theorem mem_targets_load {A V : Nat → Prop} (hm : m.Shaped A V) {p : Nat} (hp : p ≠ n)
    {o t : Location} (ho : o ∈ (Pointer.load m n p).targets (.value p))
    (ht : t ∈ (Pointer.load m n p).targets o) :
    t ∈ (Pointer.load m n p).targets (.value n) := by
  rw [← PointsTo.says_some] at ho ht ⊢
  have hpointer := (says_load.1 ho).resolve_right fun hk => hp (Location.value.inj hk.1)
  obtain ⟨j, -, rfl⟩ := hm.target hpointer
  have hobject := (says_load.1 ht).resolve_right fun hk => nomatch hk.1
  exact says_load.2 (.inr ⟨rfl, .memory j, hpointer, rfl, hobject⟩)

/-- A store changes the targets of no value, only those of memory objects. -/
theorem mem_targets_store {A V : Nat → Prop} (hm : m.Shaped A V) {v p : Nat} {o t : Location}
    (ho : o ∈ (Pointer.store m v p).targets (.value p))
    (ht : t ∈ (Pointer.store m v p).targets (.value v)) : t ∈ (Pointer.store m v p).targets o := by
  have hvalue : ∀ {j x}, (Pointer.store m v p).Says (.value j) x → m.Says (.value j) x := by
    intro j x hx
    refine (says_store.1 hx).resolve_right fun hslot => ?_
    obtain ⟨j', -, hj'⟩ := hm.target hslot.1
    cases hj'
  rw [← PointsTo.says_some] at ho ht ⊢
  exact says_store.2 (.inr ⟨hvalue ho, t, hvalue ht, .inr rfl⟩)

/-- After one visit the constraints hold, if a load through its own result says nothing of it. -/
theorem satisfies_of_apply {A V : Nat → Prop} (h : apply ctx inst n m = .ok m')
    (hm : m.Shaped A V)
    (hself : inst.opcode = .load → ctx.OperandAt inst 0 n → ∀ x, ¬ m'.Says (.value n) x) :
    Satisfies ctx inst n m m' where
  alloca hop := by
    simp only [apply, hop] at h
    obtain rfl := Except.ok.inj h
    exact PointsTo.says_some.1 (PointsTo.says_add.2 (.inr ⟨rfl, .inr rfl⟩))
  cast hop s hs := by
    obtain rfl := apply_cast h hop hs
    refine SortedSet.ext_mem fun t => ?_
    rw [← PointsTo.says_some, ← PointsTo.says_some, PointsTo.says_aliasOf, PointsTo.says_aliasOf]
    by_cases hsn : s = n
    · simp [hsn]
    · simp [hsn]
  load hop p hp o ho t ht := by
    by_cases hpn : p = n
    · subst hpn
      exact absurd (PointsTo.says_some.2 ho) (hself hop hp _)
    · obtain rfl := apply_load h hop hp
      exact mem_targets_load hm hpn ho ht
  store hop v p hv hp o ho t ht := by
    obtain rfl := apply_store h hop hv hp
    exact mem_targets_store hm ho ht
  select hop position hposition c hc t ht := by
    simp only [apply, hop] at h
    obtain ⟨c₁, hc₁, h⟩ := bind_eq_ok h
    obtain ⟨c₂, hc₂, h⟩ := bind_eq_ok h
    obtain rfl := Except.ok.inj h
    by_cases hcn : c = n
    · rwa [hcn] at ht
    rw [← PointsTo.says_some] at ht ⊢
    have hne : ¬ (Location.value c = .value n) := fun hk => hcn (Location.value.inj hk)
    have hfirst := (says_absorbValue.1 ht).resolve_right fun hk => hne hk.1
    have hbefore := (says_absorbValue.1 hfirst).resolve_right fun hk => hne hk.1
    have hc := trackedOperand_of_operandAt hc
    rcases hposition with rfl | rfl
    · obtain rfl := Except.ok.inj (hc₁.symm.trans hc)
      exact says_absorbValue.2 (.inl (says_absorbValue.2 (.inr ⟨rfl, c, rfl, hbefore⟩)))
    · obtain rfl := Except.ok.inj (hc₂.symm.trans hc)
      exact says_absorbValue.2 (.inr ⟨rfl, c, rfl, hfirst⟩)
  merge hhead := by
    simp only [apply, opcode_of_isMerge hhead.1] at h
    obtain ⟨group, hgroup, h⟩ := bind_eq_ok h
    refine ⟨group, hgroup, fun merge hmerge p hp v hv t ht => ?_⟩
    rw [← PointsTo.says_some] at ht ⊢
    exact (crossMerges_spec h).2.2 merge hmerge p hp v hv (some t) ht

/-- An idle merge satisfies the constraints. -/
theorem satisfies_of_not_head (hmerge : inst.isMerge = true) (hnot : ¬ ctx.IsHead inst) :
    Satisfies ctx inst n m m' := by
  constructor <;> simp [opcode_of_isMerge hmerge, hnot, Opcode.isAddressCast]

end Pointer

/-! ## Answers -/

section Answers

open Pointer

variable {f : Function} {config : SolverConfig} {s : Solution PointsTo} {n : Nat}
  {inst : Instruction} {e : Edge} {x : Option Location}

/-- In a whole run every map in front of a node has the shape that the rules keep. -/
theorem Solver.Reachable.input_shaped {ctx : FlowContext} {st : SolverState PointsTo}
    (h : Solver.Reachable analysis ctx config st) (hg : ctx.graph.WellFormed) (n : Nat) :
    (st.input ctx.graph n).Shaped ctx.Allocates (· ∈ ctx.graph.nodes) := by
  refine (keeps_shaped ctx).joinAll fun m hm => ?_
  obtain ⟨e, -, rfl⟩ := List.mem_map.1 hm
  exact (h.measured (finiteFacts ctx) hg).holds e.id

/-- No run learns anything of a load through its own result: only the load itself could say
    something of it, and it says no more than what it is given. -/
theorem not_says_selfLoad (hnumbered : f.Numbered) (h : solve analysis f config = .ok s)
    (hinst : FlowContext.instruction? ⟨f, s.graph⟩ n = some inst) (hop : inst.opcode = .load)
    (hself : FlowContext.OperandAt ⟨f, s.graph⟩ inst 0 n) (he : e ∈ s.graph.edges) :
    ¬ (s.value e).Says (.value n) x := by
  intro hx
  obtain ⟨st, hreach, -, rfl⟩ := solve_eq_ok h
  have hg := analysis.wellFormed_context f
  have hproduced : ∀ {st : SolverState PointsTo} {e : Edge} {v : PointsTo},
      Solver.Reachable analysis (analysis.context f) config st →
      analysis.component (analysis.context f) e.source
        (st.input (analysis.context f).graph e.source) e = some v →
      v.Says (.value n) none →
      (st.input (analysis.context f).graph e.source).Says (.value n) none := by
    intro st e v hst hv hx
    obtain ⟨inst', xs, hinst', htransfer, hxs⟩ := Analysis.component_eq_some hv
    obtain ⟨m', rfl, hcases⟩ := transfer_eq_ok htransfer
    obtain rfl := List.eq_of_mem_replicate (List.mem_of_getElem? hxs)
    rcases hcases with ⟨-, -, rfl⟩ | ⟨-, happly⟩
    · exact hx
    by_cases hen : e.source = n
    · obtain rfl := hen
      obtain rfl : inst' = inst := Option.some.inj (hinst'.symm.trans hinst)
      rw [apply_load happly hop hself] at hx
      rcases says_load.1 hx with hx | ⟨-, o, ho, -⟩
      · exact hx
      · exact ho.present
    · -- The members of a group are merges, and the load is none.
      refine says_apply_value happly (hst.input_shaped hg _) (Ne.symm hen) ?_ hx
      intro group hgroup hmem
      obtain ⟨member, hmember, rfl⟩ := List.mem_map.1 hmem
      obtain ⟨hmerge, hphi⟩ :=
        FlowContext.mergeGroup_instruction? hnumbered hgroup member hmember
      obtain rfl : member.2 = inst := Option.some.inj (hmerge.symm.trans hinst)
      rw [opcode_of_isMerge hphi] at hop
      cases hop
  have hcarried : (analysis.context f).graph.Carried (fun _ => False) (fun _ => False) e :=
    hreach.carried (PointsTo.isFact_says (.value n) none) hg (PointsTo.not_says_bottom _ _)
      (fun hst _ hv hx => .inr ⟨hproduced hst hv hx, not_false⟩) he hx.present
  obtain ⟨first, rest, -, -, hgen, -⟩ := hcarried.exists_path
  exact hgen

/-- Around each instruction of a built function, the answer of the points-to analysis meets what
    the instruction asks. -/
theorem solve_satisfies {name : String} {steps : List Builder.Step} {f : Function}
    (hbuilt : ((Builder.fresh name).run steps).build = .ok f) (config : SolverConfig)
    {s : Solution PointsTo} (h : solve analysis f config = .ok s) {n : Nat} {inst : Instruction}
    (hinst : (FlowGraph.build f .forward).instruction? f n = some inst) {e : Edge}
    (he : e ∈ (FlowGraph.build f .forward).outgoing n) :
    Satisfies ⟨f, FlowGraph.build f .forward⟩ inst n (s.input n) (s.value e) := by
  have hgraph : s.graph = FlowGraph.build f .forward := (solve_graph h).1
  rw [← hgraph] at hinst he ⊢
  have hn := (FlowGraph.mem_nodes.1 (FlowGraph.mem_nodes_of_instruction? hinst)).1
  obtain ⟨inst', xs, hinst', htransfer, hxs⟩ :=
    Analysis.component_eq_some (solve_component regular.monotone h hn he)
  obtain rfl : inst' = inst := Option.some.inj (hinst'.symm.trans hinst)
  obtain ⟨m', rfl, hcases⟩ := transfer_eq_ok htransfer
  obtain rfl := List.eq_of_mem_replicate (List.mem_of_getElem? hxs)
  rcases hcases with ⟨hmerge, hnot, -⟩ | ⟨-, happly⟩
  · exact satisfies_of_not_head hmerge hnot
  · have hshaped : (s.input n).Shaped (FlowContext.Allocates ⟨f, s.graph⟩) (· ∈ s.graph.nodes) := by
      obtain ⟨st, hreach, -, rfl⟩ := solve_eq_ok h
      exact hreach.input_shaped (analysis.wellFormed_context f) n
    refine satisfies_of_apply happly hshaped fun hop hself x => ?_
    exact not_says_selfLoad (Builder.numbered_of_build hbuilt) h hinst hop hself
      (FlowGraph.mem_outgoing.1 he).1

/-- A cell that holds a pointer to another cell, and a loop that follows the pointer. -/
def chaseSteps : List Builder.Step :=
  [.block "entry", .append .alloca [], .append .alloca [],
    .append .store [.inst (.ofSlot 1), .inst (.ofSlot 0)], .createBlock "loop",
    .createBlock "exit", .appendTerminator .br [] [.ofNat 1], .switchTo (.ofNat 1),
    .appendMerge [(.inst (.ofSlot 0), .ofNat 0), (.inst (.ofSlot 5), .ofNat 1)],
    .append .load [.inst (.ofSlot 4)], .appendTerminator .br [.arg 0] [.ofNat 1, .ofNat 2],
    .switchTo (.ofNat 2), .appendTerminator .ret [] []]

def chaseLoop : Function :=
  ((Builder.fresh "chase").run chaseSteps).function.linked

/-- The load of the loop finds the second cell behind the first one, and nothing behind the
    second one. -/
theorem solve_satisfies_chaseLoop :
    ∃ s inst, solve analysis chaseLoop {} = .ok s ∧
      (FlowGraph.build chaseLoop .forward).instruction? chaseLoop 6 = some inst ∧
      inst.opcode = .load ∧
      ((s.value ⟨6, 7, 6⟩).targets (.value 5)).items = [.memory 1, .memory 2] ∧
      ((s.value ⟨6, 7, 6⟩).targets (.value 6)).items = [.memory 2] ∧
      Satisfies ⟨chaseLoop, FlowGraph.build chaseLoop .forward⟩ inst 6 (s.input 6)
        (s.value ⟨6, 7, 6⟩) := by
  have hbuilt : ((Builder.fresh "chase").run chaseSteps).build = .ok chaseLoop := by
    decide +kernel
  obtain ⟨s, hs⟩ : ∃ s, solve analysis chaseLoop {} = .ok s :=
    exists_ok_of_toBool (by decide +kernel)
  obtain ⟨inst, hinst, hop⟩ : ∃ inst,
      (FlowGraph.build chaseLoop .forward).instruction? chaseLoop 6 = some inst ∧
        inst.opcode = .load := by
    refine ⟨⟨.ofSlot 5, none, .load, [.inst (.ofSlot 4)], [], [], .ofNat 1⟩, ?_, rfl⟩
    decide +kernel
  have hvalue : (solve analysis chaseLoop {}).toOption.map (fun s =>
      (((s.value ⟨6, 7, 6⟩).targets (.value 5)).items,
        ((s.value ⟨6, 7, 6⟩).targets (.value 6)).items)) =
      some ([.memory 1, .memory 2], [.memory 2]) := by
    decide +kernel
  simp only [hs, Except.toOption, Option.map_some, Option.some.injEq, Prod.mk.injEq] at hvalue
  have hedge : (⟨6, 7, 6⟩ : Edge) ∈ (FlowGraph.build chaseLoop .forward).outgoing 6 := by
    decide +kernel
  exact ⟨s, inst, hs, hinst, hop, hvalue.1, hvalue.2, solve_satisfies hbuilt {} hs hinst hedge⟩

end Answers

end FlowFacts
