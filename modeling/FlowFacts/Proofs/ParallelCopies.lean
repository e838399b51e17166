import FlowFacts.Proofs.LivenessPaths
import FlowFacts.Proofs.Rejection

/-!
# Groups of merges and parallel copies

The merges of a group are meant to act at once, as a parallel copy: first all their results die, and
then all the values that they take from a predecessor become live. Liveness crosses them one after
the other instead. This can only lose indices, and it loses those of merges that are taken from the
predecessor by earlier merges of the group only: when the merge itself is crossed, its result dies.

Main results:

* `Liveness.parallelCopy`: the group as a parallel copy.
* `Liveness.groupReads_iff`: what a group reads are the taken indices that are not masked.
* `Liveness.transfer_head`: what is live on the edges of the head of a group, against the parallel
  copy.
-/

namespace FlowFacts.Liveness

variable {ctx : FlowContext} {pred : BlockId} {group : List (Nat × Instruction)}
  {merge : Nat × Instruction} {s t : IndexSet} {u : Nat}

/-! ## Parallel copies -/

/-- Crosses a group of merges all at once: the results of all of them die, and then the values that
    they take from `pred` become live. -/
def parallelCopy (ctx : FlowContext) (pred : BlockId) (group : List (Nat × Instruction))
    (live : IndexSet) : Except FlowFault IndexSet :=
  group.foldlM (useIncoming ctx pred) (group.foldl (fun live merge => live.erase merge.1) live)

/-- Some merge of the group takes `u` from `pred`. -/
def Taken (ctx : FlowContext) (pred : BlockId) (group : List (Nat × Instruction)) (u : Nat) :
    Prop :=
  ∃ merge ∈ group, Takes ctx pred merge u

theorem taken_cons :
    Taken ctx pred (merge :: group) u ↔ Takes ctx pred merge u ∨ Taken ctx pred group u :=
  List.exists_mem_cons_iff _ merge group

theorem mem_foldlM_useIncoming (h : group.foldlM (useIncoming ctx pred) s = .ok t) :
    u ∈ t ↔ Taken ctx pred group u ∨ u ∈ s := by
  induction group generalizing s with
  | nil =>
    cases h
    simp [Taken]
  | cons merge group ih =>
    rw [List.foldlM_cons] at h
    obtain ⟨s', hs', h⟩ := bind_eq_ok h
    rw [ih h, mem_useIncoming hs', taken_cons, or_assoc, or_left_comm]

theorem mem_foldl_erase :
    u ∈ group.foldl (fun live merge => live.erase merge.1) s ↔
      u ∈ s ∧ u ∉ group.map Prod.fst := by
  induction group generalizing s with
  | nil => simp
  | cons merge group ih =>
    rw [List.foldl_cons, ih, SortedSet.mem_erase, List.map_cons, List.mem_cons, not_or, and_assoc]

/-- After a parallel copy: what the group does not define, and what it takes. -/
theorem mem_parallelCopy (h : parallelCopy ctx pred group s = .ok t) :
    u ∈ t ↔ (u ∈ s ∧ u ∉ group.map Prod.fst) ∨ Taken ctx pred group u := by
  rw [mem_foldlM_useIncoming h, mem_foldl_erase, or_comm]

/-- Crossing a group one by one and copying in parallel look up the same operands in the same
    order. -/
theorem parallelCopy_agree (ctx : FlowContext) (pred : BlockId) (group : List (Nat × Instruction))
    (s : IndexSet) :
    Agree (fun _ _ => True) (group.foldlM (crossMerge ctx pred) s)
      (parallelCopy ctx pred group s) := by
  refine .foldlM trivial fun merge _ s t _ => ?_
  rw [crossMerge_eq]
  unfold useIncoming
  cases merge.2.incomingFor? pred with
  | none => exact .ok trivial
  | some operand =>
    refine .bind_same fun found _ => ?_
    cases found with
    | none => exact .ok trivial
    | some i => exact .ok trivial

/-! ## Masked indices -/

/-- Some merge defines `u`, and neither it nor a later one takes `u` from `pred`. -/
def Masked (ctx : FlowContext) (pred : BlockId) (group : List (Nat × Instruction)) (u : Nat) :
    Prop :=
  ∃ before merge after, group = before ++ merge :: after ∧ merge.1 = u ∧
    ¬ Taken ctx pred (merge :: after) u

theorem masked_cons :
    Masked ctx pred (merge :: group) u ↔
      Masked ctx pred group u ∨ (merge.1 = u ∧ ¬ Taken ctx pred (merge :: group) u) := by
  constructor
  · rintro ⟨before, first, after, hsplit, hu, hnot⟩
    cases before with
    | nil =>
      obtain ⟨rfl, rfl⟩ := List.cons_eq_cons.1 hsplit
      exact .inr ⟨hu, hnot⟩
    | cons head before =>
      obtain ⟨-, rfl⟩ := List.cons_eq_cons.1 hsplit
      exact .inl ⟨before, first, after, rfl, hu, hnot⟩
  · rintro (⟨before, first, after, rfl, hu, hnot⟩ | ⟨hu, hnot⟩)
    · exact ⟨merge :: before, first, after, rfl, hu, hnot⟩
    · exact ⟨[], merge, group, rfl, hu, hnot⟩

theorem Masked.mem_map (h : Masked ctx pred group u) : u ∈ group.map Prod.fst := by
  obtain ⟨before, merge, after, rfl, rfl, -⟩ := h
  simp

/-- An index that the group defines and does not take is masked. -/
theorem masked_of_mem_map (h : u ∈ group.map Prod.fst) (hnot : ¬ Taken ctx pred group u) :
    Masked ctx pred group u := by
  obtain ⟨merge, hmerge, hu⟩ := List.mem_map.1 h
  obtain ⟨before, after, rfl⟩ := List.append_of_mem hmerge
  refine ⟨before, merge, after, rfl, hu, ?_⟩
  rintro ⟨later, hlater, htakes⟩
  exact hnot ⟨later, List.mem_append_right before hlater, htakes⟩

/-- A group reads the indices that it takes, apart from the masked ones. -/
theorem groupReads_iff :
    GroupReads ctx pred group u ↔ Taken ctx pred group u ∧ ¬ Masked ctx pred group u := by
  induction group with
  | nil => simp [GroupReads, Taken]
  | cons merge group ih =>
    rw [groupReads_cons, ih, masked_cons, taken_cons]
    have hdefined : Masked ctx pred group u → u ∈ group.map Prod.fst := Masked.mem_map
    have hmasked : u ∈ group.map Prod.fst → ¬ Taken ctx pred group u → Masked ctx pred group u :=
      masked_of_mem_map
    tauto

/-! ## One after the other -/

/-- What crossing the merges of a group one after the other makes of the live indices, `out`,
    against what a parallel copy makes of them, `copied`. -/
structure OneByOne (ctx : FlowContext) (pred : BlockId) (group : List (Nat × Instruction))
    (live out copied : IndexSet) : Prop where
  /-- A parallel copy leaves what no merge defines, and adds what the merges take. -/
  mem_copied : ∀ u, u ∈ copied ↔
    (u ∈ live ∧ u ∉ group.map Prod.fst) ∨ Taken ctx pred group u
  /-- Nothing else is live. -/
  subset : ∀ u ∈ out, u ∈ copied
  /-- What no merge defines stays live. -/
  kept : ∀ u ∈ live, u ∉ group.map Prod.fst → u ∈ out
  /-- What is lost are the taken indices of merges from which on none takes them. -/
  lost : ∀ u, u ∈ copied ∧ u ∉ out ↔
    Taken ctx pred group u ∧ ∃ before merge after, group = before ++ merge :: after ∧
      merge.1 = u ∧ ¬ Taken ctx pred (merge :: after) u
  /-- Nothing is lost if and only if every merge that is taken is taken by itself or by a later
      one. -/
  exact_iff : out = copied ↔ ∀ before merge after, group = before ++ merge :: after →
    Taken ctx pred group merge.1 → Taken ctx pred (merge :: after) merge.1

theorem oneByOne (hout : group.foldlM (crossMerge ctx pred) s = .ok t) {copied : IndexSet}
    (hcopied : parallelCopy ctx pred group s = .ok copied) :
    OneByOne ctx pred group s t copied := by
  have hmem_copied := fun u => mem_parallelCopy (u := u) hcopied
  have hmem_out := fun u => mem_foldlM_crossMerge (u := u) hout
  have hlost : ∀ u, u ∈ copied ∧ u ∉ t ↔ Taken ctx pred group u ∧ Masked ctx pred group u := by
    intro u
    have hdefined : Masked ctx pred group u → u ∈ group.map Prod.fst := Masked.mem_map
    rw [hmem_copied, hmem_out, groupReads_iff]
    tauto
  have hsubset : ∀ u ∈ t, u ∈ copied := by
    intro u hu
    rw [hmem_out, groupReads_iff] at hu
    rw [hmem_copied]
    tauto
  refine ⟨hmem_copied, hsubset, fun u hu hnot => (hmem_out u).2 (.inr ⟨hu, hnot⟩), hlost, ?_⟩
  constructor
  · intro heq before merge after hsplit htaken
    by_contra hnot
    have hgone := (hlost merge.1).2 ⟨htaken, before, merge, after, hsplit, rfl, hnot⟩
    rw [heq] at hgone
    exact hgone.2 hgone.1
  · intro htaken
    refine SortedSet.ext_mem fun u => ⟨hsubset u, fun hu => ?_⟩
    by_contra hout
    obtain ⟨htakes, before, merge, after, hsplit, rfl, hnot⟩ := (hlost u).1 ⟨hu, hout⟩
    exact hnot (htaken before merge after hsplit htakes)

theorem crossGroup_eq_ok {e : Edge} : crossGroup ctx group s e = .ok t ↔
    ∃ pred, ctx.blockOf? e.target = some pred ∧ group.foldlM (crossMerge ctx pred) s = .ok t := by
  unfold crossGroup
  cases ctx.blockOf? e.target with
  | none => simp
  | some pred => simp

/-- A group can be crossed if and only if the operands that its merges take can be looked up. -/
theorem exists_foldlM_crossMerge_iff :
    (∃ t, group.foldlM (crossMerge ctx pred) s = .ok t) ↔
      ∀ merge ∈ group, ∀ operand ∈ merge.2.incomingFor? pred,
        ∃ found, ctx.tracked operand = .ok found := by
  constructor
  · rintro ⟨t, ht⟩
    induction group generalizing s with
    | nil => simp
    | cons merge group ih =>
      rw [List.foldlM_cons] at ht
      obtain ⟨s', hs', ht⟩ := bind_eq_ok ht
      refine List.forall_mem_cons.2 ⟨fun operand hoperand => ?_, ih ht⟩
      simp only [crossMerge, Option.mem_def.1 hoperand] at hs'
      obtain ⟨found, hfound, -⟩ := bind_eq_ok hs'
      exact ⟨found, hfound⟩
  · intro h
    refine exists_foldlM_ok (fun merge hmerge s => ?_) s
    unfold crossMerge
    cases hin : merge.2.incomingFor? pred with
    | none => exact ⟨_, rfl⟩
    | some operand => exact use_ok (h merge hmerge operand hin) _

/-- At the head of a group all merges are crossed, along each edge towards its own predecessor. -/
theorem transfer_of_isHead {head : Instruction} (hhead : ctx.IsHead head)
    (hgroup : ctx.mergeGroup head.block = .ok group) (n : Nat) (live : IndexSet)
    (outs : List Edge) :
    transfer ctx head n live outs = outs.mapM (crossGroup ctx group live) := by
  obtain ⟨hmerge, block, hblock, hfirst⟩ := hhead
  have hishead : ctx.isGroupHead head = .ok true := by
    simp [FlowContext.isGroupHead, hmerge, hblock, hfirst]
  unfold transfer
  rw [if_pos hmerge, hishead, hgroup]
  rfl

/-- At the head of a group of merges, there is a set for each outgoing edge exactly if each edge
    leads to a block and the operands that the merges take from there can be looked up. Each set is
    what a parallel copy gives, up to the indices of merges that only earlier merges take. -/
theorem transfer_head (ctx : FlowContext) {head : Instruction} (hhead : ctx.IsHead head)
    {group : List (Nat × Instruction)} (hgroup : ctx.mergeGroup head.block = .ok group) (n : Nat)
    (live : IndexSet) (outs : List Edge) :
    ((∃ xs, transfer ctx head n live outs = .ok xs) ↔
      ∀ e ∈ outs, ∃ pred, ctx.blockOf? e.target = some pred ∧
        ∀ merge ∈ group, ∀ operand ∈ merge.2.incomingFor? pred,
          ∃ found, ctx.tracked operand = .ok found) ∧
    ∀ xs, transfer ctx head n live outs = .ok xs →
      List.Forall₂ (fun e out => ∃ pred copied, ctx.blockOf? e.target = some pred ∧
        parallelCopy ctx pred group live = .ok copied ∧
        OneByOne ctx pred group live out copied) outs xs := by
  rw [transfer_of_isHead hhead hgroup]
  constructor
  · constructor
    · rintro ⟨xs, hxs⟩ e he
      obtain ⟨k, hk, rfl⟩ := List.getElem_of_mem he
      have hpairs := mapM_eq_ok_iff.1 hxs
      obtain ⟨pred, hpred, hfold⟩ := crossGroup_eq_ok.1 (hpairs.get hk (hpairs.length_eq ▸ hk))
      exact ⟨pred, hpred, exists_foldlM_crossMerge_iff.1 ⟨_, hfold⟩⟩
    · intro h
      refine exists_mapM_ok fun e he => ?_
      obtain ⟨pred, hpred, hlookups⟩ := h e he
      obtain ⟨out, hout⟩ := exists_foldlM_crossMerge_iff.2 hlookups
      exact ⟨out, crossGroup_eq_ok.2 ⟨pred, hpred, hout⟩⟩
  · intro xs hxs
    refine (mapM_eq_ok_iff.1 hxs).imp fun e out hout => ?_
    obtain ⟨pred, hpred, hfold⟩ := crossGroup_eq_ok.1 hout
    obtain ⟨copied, hcopied, -⟩ := (parallelCopy_agree ctx pred group live).exists_ok hfold
    exact ⟨pred, copied, hpred, hcopied, oneByOne hfold hcopied⟩

/-- The first merge of `swapLoop`, at node 4. -/
def swapHead : Instruction :=
  ⟨.ofSlot 3, none, .phi, [.inst (.ofSlot 0), .inst (.ofSlot 4)], [.ofNat 0, .ofNat 1], [],
    .ofNat 1⟩

/-- In `swapLoop` the two merges take each other's results when control comes around. The first one
    takes the second one, at node 5, which a parallel copy has live on the edge to node 7. Crossing
    them one by one loses it, and loses nothing on the edge to the entry. -/
theorem transfer_head_swapLoop :
    ∃ group xs, (FlowGraph.build swapLoop .backward).instruction? swapLoop 4 = some swapHead ∧
      FlowContext.IsHead ⟨swapLoop, FlowGraph.build swapLoop .backward⟩ swapHead ∧
      FlowContext.mergeGroup ⟨swapLoop, FlowGraph.build swapLoop .backward⟩ (.ofNat 1) =
        .ok group ∧
      group.map Prod.fst = [4, 5] ∧
      transfer ⟨swapLoop, FlowGraph.build swapLoop .backward⟩ swapHead 4 (.ofList [5, 6])
        [⟨4, 3, 2⟩, ⟨4, 7, 3⟩] = .ok xs ∧
      xs.map SortedSet.items = [[1, 2, 6], [4, 6]] ∧
      (parallelCopy ⟨swapLoop, FlowGraph.build swapLoop .backward⟩ (.ofNat 1) group
        (.ofList [5, 6])).toOption.map SortedSet.items = some [4, 5, 6] ∧
      List.Forall₂ (fun (e : Edge) out => ∃ pred copied,
        FlowContext.blockOf? ⟨swapLoop, FlowGraph.build swapLoop .backward⟩ e.target = some pred ∧
        parallelCopy ⟨swapLoop, FlowGraph.build swapLoop .backward⟩ pred group (.ofList [5, 6]) =
          .ok copied ∧
        OneByOne ⟨swapLoop, FlowGraph.build swapLoop .backward⟩ pred group (.ofList [5, 6]) out
          copied) [⟨4, 3, 2⟩, ⟨4, 7, 3⟩] xs := by
  have hquery : FlowContext.isGroupHead ⟨swapLoop, FlowGraph.build swapLoop .backward⟩ swapHead =
      .ok true := rfl
  have hhead := (FlowContext.isHead_iff hquery).2 rfl
  obtain ⟨group, hgroup, hindices, hcopied⟩ : ∃ group,
      FlowContext.mergeGroup ⟨swapLoop, FlowGraph.build swapLoop .backward⟩ (.ofNat 1) =
        .ok group ∧ group.map Prod.fst = [4, 5] ∧
      (parallelCopy ⟨swapLoop, FlowGraph.build swapLoop .backward⟩ (.ofNat 1) group
        (.ofList [5, 6])).toOption.map SortedSet.items = some [4, 5, 6] :=
    ⟨_, rfl, by decide +kernel, by decide +kernel⟩
  obtain ⟨xs, hxs, hsets⟩ : ∃ xs,
      transfer ⟨swapLoop, FlowGraph.build swapLoop .backward⟩ swapHead 4 (.ofList [5, 6])
        [⟨4, 3, 2⟩, ⟨4, 7, 3⟩] = .ok xs ∧ xs.map SortedSet.items = [[1, 2, 6], [4, 6]] :=
    ⟨_, rfl, by decide +kernel⟩
  refine ⟨group, xs, by decide +kernel, hhead, hgroup, hindices, hxs, hsets, hcopied, ?_⟩
  exact (transfer_head _ hhead hgroup 4 _ _).2 xs hxs

end FlowFacts.Liveness
