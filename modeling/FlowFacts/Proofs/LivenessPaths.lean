import FlowFacts.Proofs.ContextQueries
import FlowFacts.Proofs.FactPaths

/-!
# Live indices are the ones in front of some path

An index is live on an edge if and only if some path of the backward graph ends with that edge,
starts where the index is read, and crosses no definition of it. An ordinary instruction reads its
operands and defines its result. The head of a group of merges defines the results of the whole
group, and reads for each predecessor what the merges take from there. Merges are crossed one
after the other, so what one of them reads is hidden by a later one that defines it, unless it is
read once more from there on.

Main results:

* `Liveness.mem_cross`, `Liveness.mem_crossGroup`: what is live after an instruction and after a
  group of merges.
* `mem_live_iff`: what is live on an edge.
-/

namespace FlowFacts

namespace Liveness

variable {ctx : FlowContext} {inst : Instruction} {n u : Nat} {s t : IndexSet} {pred : BlockId}
  {group : List (Nat × Instruction)}

/-! ## Ordinary instructions -/

theorem mem_use {operand : Operand} (h : use ctx s operand = .ok t) :
    u ∈ t ↔ ctx.Refers operand u ∨ u ∈ s := by
  obtain ⟨found, hfound, h⟩ := bind_eq_ok h
  rw [FlowContext.refers_iff hfound]
  cases found with
  | none => cases h; simp
  | some i => cases h; simp [eq_comm]

theorem mem_foldlM_use {operands : List Operand} (h : operands.foldlM (use ctx) s = .ok t) :
    u ∈ t ↔ (∃ operand ∈ operands, ctx.Refers operand u) ∨ u ∈ s := by
  induction operands generalizing s with
  | nil => cases h; simp
  | cons operand operands ih =>
    rw [List.foldlM_cons] at h
    obtain ⟨s', hs', h⟩ := bind_eq_ok h
    rw [ih h, mem_use hs', List.exists_mem_cons_iff, or_assoc, or_left_comm]

/-- After an instruction that is no merge: its operands, and what was live apart from its
    result. -/
theorem mem_cross (h : cross ctx inst n s = .ok t) :
    u ∈ t ↔ (∃ operand ∈ inst.operands, ctx.Refers operand u) ∨
      (u ∈ s ∧ ¬ (inst.opcode.isValueDefining = true ∧ u = n)) := by
  rw [mem_foldlM_use h]
  split_ifs with hdef <;> simp [hdef]

/-! ## Groups of merges -/

/-- The merge takes the result of the instruction at `u` when control arrives from `pred`. -/
def Takes (ctx : FlowContext) (pred : BlockId) (merge : Nat × Instruction) (u : Nat) : Prop :=
  ∃ operand, merge.2.incomingFor? pred = some operand ∧ ctx.Refers operand u

/-- Some merge of the group takes `u` from `pred`, and each later one that defines `u` takes it
    again or is followed by one that does. -/
def GroupReads (ctx : FlowContext) (pred : BlockId) (group : List (Nat × Instruction)) (u : Nat) :
    Prop :=
  ∃ before merge after, group = before ++ merge :: after ∧ Takes ctx pred merge u ∧
    ∀ between later rest, after = between ++ later :: rest → later.1 = u →
      ∃ again ∈ later :: rest, Takes ctx pred again u

/-- Makes what a merge takes from `pred` live. -/
def useIncoming (ctx : FlowContext) (pred : BlockId) (live : IndexSet)
    (merge : Nat × Instruction) : Except FlowFault IndexSet :=
  match merge.2.incomingFor? pred with
  | some operand => use ctx live operand
  | none => .ok live

theorem crossMerge_eq (ctx : FlowContext) (pred : BlockId) (s : IndexSet)
    (merge : Nat × Instruction) :
    crossMerge ctx pred s merge = useIncoming ctx pred (s.erase merge.1) merge := rfl

theorem mem_useIncoming {merge : Nat × Instruction} (h : useIncoming ctx pred s merge = .ok t) :
    u ∈ t ↔ Takes ctx pred merge u ∨ u ∈ s := by
  unfold useIncoming at h
  unfold Takes
  cases hin : merge.2.incomingFor? pred with
  | none =>
    simp only [hin, Except.ok.injEq] at h
    simp [← h]
  | some operand =>
    simp only [hin] at h
    simp [mem_use h]

theorem mem_crossMerge {merge : Nat × Instruction} (h : crossMerge ctx pred s merge = .ok t) :
    u ∈ t ↔ Takes ctx pred merge u ∨ (u ∈ s ∧ u ≠ merge.1) := by
  rw [crossMerge_eq] at h
  rw [mem_useIncoming h, SortedSet.mem_erase]

/-- A list in which an index occurs can be cut behind its last occurrence. -/
theorem exists_last (h : u ∈ group.map Prod.fst) :
    ∃ between later rest, group = between ++ later :: rest ∧ later.1 = u ∧
      u ∉ rest.map Prod.fst := by
  induction group with
  | nil => simp at h
  | cons merge group ih =>
    by_cases hrest : u ∈ group.map Prod.fst
    · obtain ⟨between, later, rest, rfl, hlater, hnot⟩ := ih hrest
      exact ⟨merge :: between, later, rest, rfl, hlater, hnot⟩
    · have hmerge : u = merge.1 := by simpa [hrest] using h
      exact ⟨[], merge, group, rfl, hmerge.symm, hrest⟩

/-- What a group reads is decided by its last merge that takes or defines the index. -/
theorem groupReads_cons {merge : Nat × Instruction} :
    GroupReads ctx pred (merge :: group) u ↔
      GroupReads ctx pred group u ∨ (Takes ctx pred merge u ∧ u ∉ group.map Prod.fst) := by
  constructor
  · rintro ⟨before, first, after, hsplit, htakes, hlater⟩
    cases before with
    | cons head before =>
      obtain ⟨-, rfl⟩ := List.cons_eq_cons.1 hsplit
      exact .inl ⟨before, first, after, rfl, htakes, hlater⟩
    | nil =>
      obtain ⟨rfl, rfl⟩ := List.cons_eq_cons.1 hsplit
      by_cases hdefined : u ∈ group.map Prod.fst
      · -- The last merge that defines `u` is followed by one that takes it, and by no other
        -- definition.
        obtain ⟨between, later, rest, hgroup, hu, hnot⟩ := exists_last hdefined
        obtain ⟨again, hagain, htakes⟩ := hlater between later rest hgroup hu
        obtain ⟨skipped, tail, htail⟩ := List.append_of_mem hagain
        refine .inl ⟨between ++ skipped, again, tail, by simp [hgroup, htail], htakes, ?_⟩
        intro gap redefined rest' hrest' hredefined
        have hmem : redefined ∈ rest := by
          cases skipped with
          | nil => simp_all
          | cons head skipped =>
            obtain ⟨-, rfl⟩ := List.cons_eq_cons.1 htail
            simp [hrest']
        exact absurd (List.mem_map.2 ⟨redefined, hmem, hredefined⟩) hnot
      · exact .inr ⟨htakes, hdefined⟩
  · rintro (⟨before, first, after, rfl, htakes, hlater⟩ | ⟨htakes, hnot⟩)
    · exact ⟨merge :: before, first, after, rfl, htakes, hlater⟩
    · refine ⟨[], merge, group, rfl, htakes, ?_⟩
      rintro between later rest rfl rfl
      simp at hnot

/-- After a group of merges: what it reads, and what was live apart from its results. -/
theorem mem_foldlM_crossMerge (h : group.foldlM (crossMerge ctx pred) s = .ok t) :
    u ∈ t ↔ GroupReads ctx pred group u ∨ (u ∈ s ∧ u ∉ group.map Prod.fst) := by
  induction group generalizing s with
  | nil => cases h; simp [GroupReads]
  | cons merge group ih =>
    rw [List.foldlM_cons] at h
    obtain ⟨s', hs', h⟩ := bind_eq_ok h
    rw [ih h, mem_crossMerge hs', groupReads_cons, List.map_cons, List.mem_cons]
    tauto

theorem mem_crossGroup {e : Edge} (h : crossGroup ctx group s e = .ok t) :
    ∃ pred, ctx.blockOf? e.target = some pred ∧
      (u ∈ t ↔ GroupReads ctx pred group u ∨ (u ∈ s ∧ u ∉ group.map Prod.fst)) := by
  unfold crossGroup at h
  cases hpred : ctx.blockOf? e.target with
  | none => simp [hpred] at h
  | some pred =>
    simp only [hpred] at h
    exact ⟨pred, rfl, mem_foldlM_crossMerge h⟩

/-! ## Reads -/

/-- The instruction `inst` at the source of the edge reads `u` there: `u` is one of its operands if
    it is no merge, and otherwise its group reads `u` from the block at the end of the edge. -/
inductive Reads (ctx : FlowContext) (inst : Instruction) (e : Edge) (u : Nat) : Prop
  | operand {operand : Operand} : inst.isMerge = false → operand ∈ inst.operands →
      ctx.Refers operand u → Reads ctx inst e u
  | group {group : List (Nat × Instruction)} {pred : BlockId} : ctx.IsHead inst →
      ctx.mergeGroup inst.block = .ok group → ctx.blockOf? e.target = some pred →
      GroupReads ctx pred group u → Reads ctx inst e u

theorem reads_ordinary {e : Edge} (h : inst.isMerge = false) :
    Reads ctx inst e u ↔ ∃ operand ∈ inst.operands, ctx.Refers operand u := by
  constructor
  · rintro (⟨-, hmem, hu⟩ | ⟨⟨hmerge, -⟩, -, -, -⟩)
    · exact ⟨_, hmem, hu⟩
    · simp [h] at hmerge
  · rintro ⟨operand, hmem, hu⟩
    exact .operand h hmem hu

theorem reads_head {e : Edge} (h : ctx.IsHead inst) (hgroup : ctx.mergeGroup inst.block = .ok group)
    (hpred : ctx.blockOf? e.target = some pred) :
    Reads ctx inst e u ↔ GroupReads ctx pred group u := by
  constructor
  · rintro (⟨hordinary, -, -⟩ | ⟨-, hgroup', hpred', hreads⟩)
    · simp [h.1] at hordinary
    · rw [hgroup] at hgroup'
      rw [hpred] at hpred'
      cases hgroup'
      cases hpred'
      exact hreads
  · exact .group h hgroup hpred

/-- A merge that is not the first instruction of its block reads nothing. -/
theorem not_reads {e : Edge} (hmerge : inst.isMerge = true) (h : ¬ ctx.IsHead inst) :
    ¬ Reads ctx inst e u := by
  rintro (⟨hordinary, -, -⟩ | ⟨hhead, -, -, -⟩)
  · simp [hmerge] at hordinary
  · exact h hhead

/-- What is live on an edge: what the instruction at its source reads there, and what was live
    apart from what the instruction defines. -/
theorem mem_transfer {outs : List Edge} {xs : List IndexSet}
    (h : transfer ctx inst n s outs = .ok xs) {i : Nat} {e : Edge} (he : outs[i]? = some e)
    (ht : xs[i]? = some t) :
    u ∈ t ↔ Reads ctx inst e u ∨ (u ∈ s ∧ ¬ ctx.Defines inst n u) := by
  unfold transfer at h
  split_ifs at h with hmerge
  · obtain ⟨head, hhead, h⟩ := bind_eq_ok h
    have hiff := FlowContext.isHead_iff hhead
    cases head with
    | false =>
      cases h
      obtain rfl := List.eq_of_mem_replicate (List.mem_of_getElem? ht)
      have hnot : ¬ ctx.IsHead inst := by simp [hiff]
      simp [not_reads hmerge hnot, FlowContext.not_defines hmerge hnot]
    | true =>
      obtain ⟨group, hgroup, h⟩ := bind_eq_ok h
      have hishead := hiff.2 rfl
      have hcross : crossGroup ctx group s e = .ok t := by
        have hpairs := mapM_eq_ok_iff.1 h
        obtain ⟨hi, rfl⟩ := List.getElem?_eq_some_iff.1 he
        obtain ⟨hi', rfl⟩ := List.getElem?_eq_some_iff.1 ht
        exact hpairs.get hi hi'
      obtain ⟨pred, hpred, hmem⟩ := mem_crossGroup (u := u) hcross
      rw [hmem, reads_head hishead hgroup hpred, FlowContext.defines_head hishead hgroup]
  · obtain ⟨out, hout, h⟩ := bind_eq_ok h
    cases h
    obtain rfl := List.eq_of_mem_replicate (List.mem_of_getElem? ht)
    have hordinary : inst.isMerge = false := by simpa using hmerge
    rw [mem_cross hout, reads_ordinary hordinary,
      FlowContext.defines_ordinary hordinary]

/-! ## Answers -/

theorem genKill (ctx : FlowContext) (u : Nat) :
    analysis.GenKill ctx (u ∈ ·)
      (fun e => ∃ inst, ctx.instruction? e.source = some inst ∧ Reads ctx inst e u)
      (fun e => ∃ inst, ctx.instruction? e.source = some inst ∧ ctx.Defines inst e.source u) where
  initial := SortedSet.not_mem_empty u
  component {e x v} he hv := by
    obtain ⟨inst, xs, hinst, htransfer, hxs⟩ := Analysis.component_eq_some hv
    have hplace := List.getElem?_idxOf (FlowGraph.mem_outgoing.2 ⟨he, rfl⟩)
    rw [mem_transfer htransfer hplace hxs]
    simp [hinst]

end Liveness

/-- An index is live on an edge, in an answer for any function, if and only if a path of the
    backward graph ends with the edge, its first edge leaves an instruction that reads the index
    there, and none of its other edges leaves an instruction that defines the index. -/
theorem mem_live_iff (f : Function) (config : SolverConfig) {s : Solution IndexSet}
    (h : solve Liveness.analysis f config = .ok s) {e : Edge}
    (he : e ∈ (FlowGraph.build f .backward).edges) (u : Nat) :
    u ∈ s.value e ↔
      ∃ first rest, (FlowGraph.build f .backward).IsPath (first :: rest) ∧
        (first :: rest).getLast? = some e ∧
        (∃ inst, (FlowGraph.build f .backward).instruction? f first.source = some inst ∧
          Liveness.Reads ⟨f, FlowGraph.build f .backward⟩ inst first u) ∧
        ∀ d ∈ rest, ¬ ∃ inst, (FlowGraph.build f .backward).instruction? f d.source = some inst ∧
          FlowContext.Defines ⟨f, FlowGraph.build f .backward⟩ inst d.source u := by
  have hgraph : s.graph = FlowGraph.build f .backward := (solve_graph h).1
  rw [← hgraph] at he ⊢
  rw [solve_fact_iff (IndexSet.isFact_mem u) Liveness.regular.monotone h (Liveness.genKill _ u) he]
  exact FlowGraph.carried_iff_exists_path

/-- In `swapLoop`, on the edge from the first merge at node 4 back to the end of the loop, the first
    merge is live and the second one, at node 5, is not: the first merge reads it from there, but
    the second one is crossed later. -/
theorem live_swapLoop :
    ∃ s, solve Liveness.analysis swapLoop {} = .ok s ∧
      4 ∈ s.value ⟨4, 7, 3⟩ ∧ 5 ∉ s.value ⟨4, 7, 3⟩ ∧
      ∀ u, u ∈ s.value ⟨4, 7, 3⟩ ↔
        ∃ first rest, (FlowGraph.build swapLoop .backward).IsPath (first :: rest) ∧
          (first :: rest).getLast? = some ⟨4, 7, 3⟩ ∧
          (∃ inst, (FlowGraph.build swapLoop .backward).instruction? swapLoop first.source =
              some inst ∧
            Liveness.Reads ⟨swapLoop, FlowGraph.build swapLoop .backward⟩ inst first u) ∧
          ∀ d ∈ rest, ¬ ∃ inst,
            (FlowGraph.build swapLoop .backward).instruction? swapLoop d.source = some inst ∧
              FlowContext.Defines ⟨swapLoop, FlowGraph.build swapLoop .backward⟩ inst d.source u := by
  obtain ⟨s, hs⟩ : ∃ s, solve Liveness.analysis swapLoop {} = .ok s :=
    exists_ok_of_toBool (by decide +kernel)
  have hvalue : (solve Liveness.analysis swapLoop {}).toOption.map (fun s =>
      (s.value ⟨4, 7, 3⟩).items) = some [4] := by
    decide +kernel
  simp only [hs, Except.toOption, Option.map_some, Option.some.injEq] at hvalue
  have hedge : (⟨4, 7, 3⟩ : Edge) ∈ (FlowGraph.build swapLoop .backward).edges := by
    decide +kernel
  refine ⟨s, hs, ?_, ?_, fun u => mem_live_iff swapLoop {} hs hedge u⟩
  · simp [SortedSet.mem_def, hvalue]
  · simp [SortedSet.mem_def, hvalue]

end FlowFacts
