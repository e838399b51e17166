import FlowFacts.Proofs.PointerConstraints

/-!
# What an instruction may change in a points-to map

An instruction changes the entries of few locations: its own result, the slots behind the pointer of
a store, or the results of a group of merges. Only a cast can forget what was known. Both hold of
every map, also of maps that no run produces: targets may be values, a location may point to itself,
and a location may be present without a target.

Main results:

* `Pointer.Writes`: the locations whose entries an instruction may change.
* `Pointer.apply_grows`: all that is known stays known, except at a cast.
* `Pointer.transfer_frame`: what an instruction changes on its outgoing edges.
-/

namespace FlowFacts

/-- A map that only grows keeps the entry of a location of which it says nothing new. -/
theorem PointsTo.targets?_eq_of_le {m m' : PointsTo} {l : Location} (hle : Domain.LE m m')
    (h : ∀ x, m'.Says l x → m.Says l x) : m'.targets? l = m.targets? l :=
  targets?_eq_of_says fun x => ⟨h x, le_iff.1 hle l x⟩

namespace Pointer

variable {ctx : FlowContext} {inst : Instruction} {n : Nat} {m m' : PointsTo} {l : Location}

/-- The locations whose entries the instruction at node `n` may change, if `m` is known in front of
    it. -/
inductive Writes (ctx : FlowContext) (inst : Instruction) (n : Nat) (m : PointsTo) :
    Location → Prop
  /-- The result of an allocation, a cast, a load or a selection. -/
  | result : inst.opcode ∈ [.alloca, .bitcast, .getelementptr, .load, .select] →
      Writes ctx inst n m (.value n)
  /-- A slot behind the pointer of a store. -/
  | slot {p : Nat} {l : Location} : inst.opcode = .store → ctx.OperandAt inst 1 p →
      l ∈ m.targets (.value p) → Writes ctx inst n m l
  /-- The result of a merge, at the head of its group. -/
  | merge {group : List (Nat × Instruction)} {merge : Nat × Instruction} : ctx.IsHead inst →
      ctx.mergeGroup inst.block = .ok group → merge ∈ group → Writes ctx inst n m (.value merge.1)

/-! ## Growth -/

theorem le_store (m : PointsTo) (value pointer : Nat) : Domain.LE m (store m value pointer) :=
  PointsTo.le_iff.2 fun _ _ hx => says_store.2 (.inl hx)

/-- A store keeps the entries of all locations but the slots. -/
theorem targets?_store {value pointer : Nat} (h : l ∉ m.targets (.value pointer)) :
    (store m value pointer).targets? l = m.targets? l := by
  refine PointsTo.targets?_eq_of_le (le_store m value pointer) fun x hx => ?_
  refine (says_store.1 hx).resolve_right ?_
  rintro ⟨hslot, -⟩
  exact h (PointsTo.says_some.1 hslot)

/-- All that is known stays known, except at a cast. -/
theorem apply_grows (h : apply ctx inst n m = .ok m') (hcast : inst.opcode.isAddressCast = false) :
    Domain.LE m m' := by
  rcases apply_cases h with rfl | ⟨-, rfl⟩ | ⟨hop, -⟩ | ⟨-, p, rfl⟩ | ⟨-, v, p, -, rfl⟩ |
    ⟨-, c, d, rfl⟩ | ⟨-, group, -, hfold⟩
  · exact Domain.le_refl _
  · exact PointsTo.le_iff.2 fun _ _ hx => PointsTo.says_add.2 (.inl hx)
  · rw [hcast] at hop
    cases hop
  · exact PointsTo.le_iff.2 fun _ _ hx => says_load.2 (.inl hx)
  · exact le_store m v p
  · refine PointsTo.le_iff.2 fun _ _ hx => says_absorbValue.2 (.inl ?_)
    exact says_absorbValue.2 (.inl hx)
  · exact PointsTo.le_iff.2 (crossMerges_spec hfold).1

/-! ## Frames -/

theorem opcode_of_isAddressCast (h : inst.opcode.isAddressCast = true) :
    inst.opcode = .bitcast ∨ inst.opcode = .getelementptr := by
  cases hop : inst.opcode <;> simp_all [Opcode.isAddressCast]

/-- A cast makes its result an alias of its operand, if that refers to an instruction. -/
theorem apply_cast_cases (h : apply ctx inst n m = .ok m')
    (hcast : inst.opcode.isAddressCast = true) :
    m' = m ∨ ∃ s, m' = m.aliasOf (.value n) (.value s) := by
  rcases apply_cases h with heq | ⟨hop, -⟩ | ⟨-, hs⟩ | ⟨hop, -⟩ | ⟨hop, -⟩ | ⟨hop, -⟩ | ⟨hop, -⟩
  · exact .inl heq
  · simp [hop, Opcode.isAddressCast] at hcast
  · exact .inr hs
  all_goals simp [hop, Opcode.isAddressCast] at hcast

/-- Whatever an instruction says in addition, it says of a location that it may change. -/
theorem says_or_writes (h : apply ctx inst n m = .ok m')
    (hhead : inst.opcode = .phi → ctx.IsHead inst)
    (hcast : inst.opcode.isAddressCast = false) {x : Option Location} (hx : m'.Says l x) :
    m.Says l x ∨ Writes ctx inst n m l := by
  rcases apply_cases h with rfl | ⟨hop, rfl⟩ | ⟨hop, -⟩ | ⟨hop, p, rfl⟩ | ⟨hop, v, p, hp, rfl⟩ |
    ⟨hop, c, d, rfl⟩ | ⟨hop, group, hgroup, hfold⟩
  · exact .inl hx
  · refine (PointsTo.says_add.1 hx).imp_right ?_
    rintro ⟨rfl, -⟩
    exact .result (by simp [hop])
  · rw [hcast] at hop
    cases hop
  · refine (says_load.1 hx).imp_right ?_
    rintro ⟨rfl, -⟩
    exact .result (by simp [hop])
  · refine (says_store.1 hx).imp_right ?_
    rintro ⟨hslot, -⟩
    exact .slot hop hp (PointsTo.says_some.1 hslot)
  · have hresult : Writes ctx inst n m (.value n) := .result (by simp [hop])
    rcases says_absorbValue.1 hx with hx | ⟨rfl, -⟩
    · refine (says_absorbValue.1 hx).imp_right ?_
      rintro ⟨rfl, -⟩
      exact hresult
    · exact .inr hresult
  · refine ((crossMerges_spec hfold).2.1 l x hx).imp_right ?_
    rintro ⟨merge, hmerge, rfl⟩
    exact .merge (hhead hop) hgroup hmerge

/-- An instruction keeps the entries of all locations that it may not change. -/
theorem targets?_apply (h : apply ctx inst n m = .ok m')
    (hhead : inst.opcode = .phi → ctx.IsHead inst) (hl : ¬ Writes ctx inst n m l) :
    m'.targets? l = m.targets? l := by
  by_cases hcast : inst.opcode.isAddressCast = true
  · have hresult : Writes ctx inst n m (.value n) := by
      refine .result ?_
      rcases opcode_of_isAddressCast hcast with hop | hop <;> simp [hop]
    have hne : l ≠ .value n := by
      rintro rfl
      exact hl hresult
    rcases apply_cast_cases h hcast with rfl | ⟨s, rfl⟩
    · rfl
    · rw [PointsTo.targets?_aliasOf, if_neg hne]
  · rw [Bool.not_eq_true] at hcast
    refine PointsTo.targets?_eq_of_le (apply_grows h hcast) fun x hx => ?_
    exact (says_or_writes h hhead hcast hx).resolve_right hl

/-- For any map in front of an instruction, the same map is produced for each outgoing edge. It
    differs from the one in front only in the entries of locations that the instruction may change,
    and it lies above the one in front unless the instruction is a cast. -/
theorem transfer_frame (ctx : FlowContext) (inst : Instruction) (n : Nat) (m : PointsTo)
    (outs : List Edge) {xs : List PointsTo} (h : transfer ctx inst n m outs = .ok xs) :
    ∃ m', xs = List.replicate outs.length m' ∧
      (∀ l, m'.targets? l ≠ m.targets? l → Writes ctx inst n m l) ∧
      (inst.opcode ≠ .bitcast → inst.opcode ≠ .getelementptr → Domain.LE m m') := by
  obtain ⟨m', rfl, ⟨-, -, rfl⟩ | ⟨hacts, happly⟩⟩ := transfer_eq_ok h
  · exact ⟨m', rfl, fun l hl => absurd rfl hl, fun _ _ => Domain.le_refl m'⟩
  · have hhead : inst.opcode = .phi → ctx.IsHead inst := by
      intro hop
      refine hacts.resolve_left ?_
      rw [Instruction.isMerge, hop]
      decide
    refine ⟨m', rfl, fun l hl => ?_, fun hbitcast hgep => apply_grows happly ?_⟩
    · by_contra hnot
      exact hl (targets?_apply happly hhead hnot)
    · by_contra hcast
      rw [Bool.not_eq_false] at hcast
      exact (opcode_of_isAddressCast hcast).elim hbitcast hgep

/-- A map that no run produces: a value that points to itself, a value that points to a value, and
    an object that is present without a target. -/
def tangled : PointsTo :=
  .ofEntries [(.value 1, .ofList [.value 1, .memory 9]), (.value 2, .ofList [.value 2]),
    (.memory 9, .empty)]

/-- The store of `chaseLoop`, from node 2 through node 1. -/
def chaseStore : Instruction :=
  ⟨.ofSlot 2, none, .store, [.inst (.ofSlot 1), .inst (.ofSlot 0)], [], [], .ofNat 0⟩

/-- The store adds the target of node 2 to both targets of node 1, one of which is node 1 itself. -/
theorem transfer_frame_tangled :
    (FlowGraph.build chaseLoop .forward).instruction? chaseLoop 3 = some chaseStore ∧
    ∃ m', transfer ⟨chaseLoop, FlowGraph.build chaseLoop .forward⟩ chaseStore 3 tangled
        [⟨3, 4, 2⟩, ⟨3, 6, 7⟩] = .ok [m', m'] ∧
      (m'.targets (.value 1)).items = [.value 1, .value 2, .memory 9] ∧
      (m'.targets (.memory 9)).items = [.value 2] ∧
      (∀ l, m'.targets? l ≠ tangled.targets? l →
        Writes ⟨chaseLoop, FlowGraph.build chaseLoop .forward⟩ chaseStore 3 tangled l) ∧
      Domain.LE tangled m' := by
  obtain ⟨xs, hxs, hvalues⟩ : ∃ xs,
      transfer ⟨chaseLoop, FlowGraph.build chaseLoop .forward⟩ chaseStore 3 tangled
        [⟨3, 4, 2⟩, ⟨3, 6, 7⟩] = .ok xs ∧
      xs.head?.map (fun m => ((m.targets (.value 1)).items, (m.targets (.memory 9)).items)) =
        some ([.value 1, .value 2, .memory 9], [.value 2]) :=
    ⟨_, rfl, by decide +kernel⟩
  obtain ⟨m', rfl, hframe, hgrows⟩ := transfer_frame _ _ _ _ _ hxs
  obtain ⟨hvalue, hmemory⟩ := Prod.mk.inj (Option.some.inj hvalues)
  exact ⟨by decide +kernel, m', hxs, hvalue, hmemory, hframe, hgrows (by decide) (by decide)⟩

end Pointer

end FlowFacts
