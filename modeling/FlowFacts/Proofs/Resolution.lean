import FlowFacts.Proofs.ScopeLaws

/-!
# What statements denote

The second round of name resolution, section by section: each statement denotes an instruction,
and the function that comes out has these instructions in the order of the statements.

Main results:

* `Source.Scope.exists_denotes`, `Source.Scope.Denotes.exists_step`: single statements.
* `Source.addStatements_eq_ok_iff`, `Source.addSections_eq_ok_iff`: the loops over statements and
  sections.
-/

namespace FlowFacts

/-- The step appends an instruction with these contents. -/
def Builder.Step.Pushes (inst : Instruction) : Builder.Step → Prop
  | .append opcode operands =>
    inst.opcode = opcode ∧ inst.operands = operands ∧ inst.incoming = [] ∧ inst.targets = []
  | .appendMerge incoming =>
    inst.opcode = .phi ∧ inst.operands = incoming.map Prod.fst ∧
      inst.incoming = incoming.map Prod.snd ∧ inst.targets = []
  | .appendTerminator opcode operands targets =>
    opcode.isTerminator = true ∧ inst.opcode = opcode ∧ inst.operands = operands ∧
      inst.incoming = [] ∧ inst.targets = targets
  | _ => False

theorem Builder.Step.Pushes.step {s : Builder.Step} {inst : Instruction} (h : s.Pushes inst)
    (b : Builder) :
    b.step s = .ok (b.push inst.opcode inst.operands inst.incoming inst.targets) := by
  cases s with
  | append opcode operands =>
    obtain ⟨rfl, rfl, hincoming, htargets⟩ := h
    rw [hincoming, htargets]
    rfl
  | appendMerge incoming =>
    obtain ⟨hopcode, hoperands, hincoming, htargets⟩ := h
    rw [hopcode, hoperands, hincoming, htargets]
    rfl
  | appendTerminator opcode operands targets =>
    obtain ⟨hterminator, rfl, rfl, hincoming, rfl⟩ := h
    rw [hincoming]
    simp [Builder.step, Builder.appendTerminator, hterminator]
  | _ => exact h.elim

namespace Source

open Layout

variable {scope : Scope} {b b' : Builder} {st : Statement} {s : Section} {done rest : Layout}
  {label name : String} {params : List String} {insts : List Instruction}
  {faults : List BuildFault}

/-! ## Statements -/

/-- What an instruction without its result says: opcode, operands, blocks that operands arrive
    from, and targets. -/
inductive Scope.Means (scope : Scope) :
    Body → Opcode → List Operand → List BlockId → List BlockId → Prop
  | phi {incoming : List (Term × String)} {pairs : List (Operand × BlockId)}
      (h : List.Forall₂ (fun p q => scope.operand p.1 = .ok q.1 ∧ scope.block p.2 = .ok q.2)
        incoming pairs) :
      scope.Means (.phi incoming) .phi (pairs.map Prod.fst) (pairs.map Prod.snd) []
  | condBr {c : Term} {t e : String} {condition : Operand} {thenBlock elseBlock : BlockId}
      (hc : scope.operand c = .ok condition) (ht : scope.block t = .ok thenBlock)
      (he : scope.block e = .ok elseBlock) :
      scope.Means (.condBr c t e) .br [condition] [] [thenBlock, elseBlock]
  | br {t : String} {target : BlockId} (h : scope.block t = .ok target) :
      scope.Means (.br t) .br [] [] [target]
  | switch {v : Term} {d : String} {cases : List (String × String)} {value : Operand}
      {default : BlockId} {pairs : List (Int64 × BlockId)} (hv : scope.operand v = .ok value)
      (hd : scope.block d = .ok default)
      (h : List.Forall₂ (fun c q => scope.integer c.1 = .ok q.1 ∧ scope.block c.2 = .ok q.2)
        cases pairs) :
      scope.Means (.switch v d cases) .switch (value :: pairs.map fun q => .const q.1) []
        (default :: pairs.map Prod.snd)
  | call (callee : String) {ts : List Term} {args : List Operand}
      (h : List.Forall₂ (fun t o => scope.operand t = .ok o) ts args) :
      scope.Means (.call callee ts) .call (.global callee :: args) [] []
  | generic (opcode : Opcode) {ts : List Term} {operands : List Operand}
      (h : List.Forall₂ (fun t o => scope.operand t = .ok o) ts operands) :
      scope.Means (.generic opcode.name ts) opcode operands [] []

/-- An instruction without its result denotes the contents of an instruction. -/
def Scope.Denotes (scope : Scope) (body : Body) (inst : Instruction) : Prop :=
  scope.Means body inst.opcode inst.operands inst.incoming inst.targets

theorem Scope.mapM_pairs {α β γ δ : Type} {f : α → Except SourceError β}
    {g : γ → Except SourceError δ} {xs : List (α × γ)} {ys : List (β × δ)} :
    (xs.mapM fun p => do return (← f p.1, ← g p.2)) = .ok ys ↔
      List.Forall₂ (fun p q => f p.1 = .ok q.1 ∧ g p.2 = .ok q.2) xs ys := by
  have hpair : ∀ (p : α × γ) (q : β × δ), (do return (← f p.1, ← g p.2)) = Except.ok q ↔
      f p.1 = .ok q.1 ∧ g p.2 = .ok q.2 := by
    intro p q
    simp only [bind_eq_ok_iff]
    constructor
    · rintro ⟨b, hb, d, hd, h⟩
      cases h
      exact ⟨hb, hd⟩
    · rintro ⟨hb, hd⟩
      exact ⟨q.1, hb, q.2, hd, rfl⟩
  rw [mapM_eq_ok_iff]
  simp only [hpair]

/-- Every step of a statement appends an instruction, one that the statement denotes. -/
theorem Scope.exists_denotes {body : Body} {step : Builder.Step} (h : scope.step body = .ok step)
    (id : InstId) (name : Option String) (block : BlockId) :
    ∃ inst : Instruction, inst.id = id ∧ inst.name = name ∧ inst.block = block ∧
      scope.Denotes body inst ∧ step.Pushes inst := by
  have hmake : ∀ {opcode : Opcode} {operands : List Operand} {incoming targets : List BlockId},
      scope.Means body opcode operands incoming targets →
      step.Pushes ⟨id, name, opcode, operands, incoming, targets, block⟩ →
      ∃ inst : Instruction, inst.id = id ∧ inst.name = name ∧ inst.block = block ∧
        scope.Denotes body inst ∧ step.Pushes inst :=
    fun hmeans hpushes =>
      ⟨⟨id, name, _, _, _, _, block⟩, rfl, rfl, rfl, hmeans, hpushes⟩
  cases body with
  | phi incoming =>
    obtain ⟨pairs, hpairs, h⟩ := bind_eq_ok h
    cases h
    exact hmake (.phi (mapM_pairs.1 hpairs)) ⟨rfl, rfl, rfl, rfl⟩
  | condBr condition thenLabel elseLabel =>
    obtain ⟨c, hc, h⟩ := bind_eq_ok h
    obtain ⟨t, ht, h⟩ := bind_eq_ok h
    obtain ⟨e, he, h⟩ := bind_eq_ok h
    cases h
    exact hmake (.condBr hc ht he) ⟨rfl, rfl, rfl, rfl, rfl⟩
  | br label =>
    obtain ⟨t, ht, h⟩ := bind_eq_ok h
    cases h
    exact hmake (.br ht) ⟨rfl, rfl, rfl, rfl, rfl⟩
  | switch value default cases =>
    obtain ⟨v, hv, h⟩ := bind_eq_ok h
    obtain ⟨d, hd, h⟩ := bind_eq_ok h
    obtain ⟨pairs, hpairs, h⟩ := bind_eq_ok h
    cases h
    exact hmake (.switch hv hd (mapM_pairs.1 hpairs)) ⟨rfl, rfl, rfl, rfl, rfl⟩
  | call callee args =>
    obtain ⟨xs, hxs, h⟩ := bind_eq_ok h
    cases h
    exact hmake (.call callee (mapM_eq_ok_iff.1 hxs)) ⟨rfl, rfl, rfl, rfl⟩
  | generic opcode operands =>
    unfold Scope.step at h
    cases hop : Opcode.ofName? opcode with
    | none => simp [hop] at h
    | some op =>
      simp only [hop] at h
      obtain ⟨xs, hxs, h⟩ := bind_eq_ok h
      obtain rfl := Opcode.name_of_ofName? hop
      cases h
      refine hmake (.generic op (mapM_eq_ok_iff.1 hxs)) ?_
      split_ifs with hterminator
      · exact ⟨hterminator, rfl, rfl, rfl, rfl⟩
      · exact ⟨rfl, rfl, rfl, rfl⟩

theorem Scope.Denotes.exists_step {body : Body} {inst : Instruction}
    (h : scope.Denotes body inst) : ∃ step, scope.step body = .ok step ∧ step.Pushes inst := by
  obtain ⟨id, name, opcode, operands, incoming, targets, block⟩ := inst
  unfold Denotes at h
  cases h with
  | phi h =>
    refine ⟨.appendMerge _, ?_, rfl, rfl, rfl, rfl⟩
    rw [step, mapM_pairs.2 h]
    rfl
  | condBr hc ht he =>
    refine ⟨.branch _ _ _, ?_, rfl, rfl, rfl, rfl, rfl⟩
    rw [step, hc, ht, he]
    rfl
  | br h =>
    refine ⟨.jump _, ?_, rfl, rfl, rfl, rfl, rfl⟩
    rw [step, h]
    rfl
  | switch hv hd h =>
    refine ⟨.switch _ _ _, ?_, rfl, rfl, rfl, rfl, rfl⟩
    rw [step, hv, hd, mapM_pairs.2 h]
    rfl
  | call callee h =>
    refine ⟨.call callee _, ?_, rfl, rfl, rfl, rfl⟩
    rw [step, mapM_eq_ok_iff.2 h]
    rfl
  | @generic _ ts _ h =>
    have hstep : scope.step (.generic opcode.name ts) = .ok
        (if opcode.isTerminator then .appendTerminator opcode operands []
          else .append opcode operands) := by
      rw [step, Opcode.ofName?_name]
      dsimp only
      rw [mapM_eq_ok_iff.2 h]
      rfl
    refine ⟨_, hstep, ?_⟩
    split_ifs with hterminator
    · exact ⟨hterminator, rfl, rfl, rfl, rfl⟩
    · exact ⟨rfl, rfl, rfl, rfl⟩

/-- A statement appends the instruction that it denotes, under the name of its result. -/
theorem addStatement_eq_ok_iff (h : Numbered (done ++ (label, insts) :: rest))
    (hrest : ∀ s ∈ rest, s.2 = []) (hfew : (instructions done ++ insts).length < UInt32.size) :
    addStatement scope ⟨(done ++ (label, insts) :: rest).assemble name params,
        some (.ofNat done.length), faults⟩ st = .ok b' ↔
      ∃ inst, scope.Denotes st.body inst ∧ inst.name = st.result ∧
        Numbered (done ++ (label, insts ++ [inst]) :: rest) ∧
        b' = ⟨(done ++ (label, insts ++ [inst]) :: rest).assemble name params,
          some (.ofNat done.length),
          faults ++ (placementFault insts.getLast? label inst.opcode).toList⟩ := by
  -- Naming changes only the instruction that was just appended.
  have hadd : ∀ {step : Builder.Step} {inst : Instruction}, scope.step st.body = .ok step →
      step.Pushes inst → inst.name = st.result →
      inst.id = .ofSlot (instructions done ++ insts).length → inst.block = .ofNat done.length →
      addStatement scope ⟨(done ++ (label, insts) :: rest).assemble name params,
        some (.ofNat done.length), faults⟩ st =
          .ok ⟨(done ++ (label, insts ++ [inst]) :: rest).assemble name params,
            some (.ofNat done.length),
            faults ++ (placementFault insts.getLast? label inst.opcode).toList⟩ := by
    intro step inst hstep hpushes hname hid hblock
    have hnext : Builder.nextInst ⟨(done ++ (label, insts) :: rest).assemble name params,
        some (.ofNat done.length), faults⟩ = .ofSlot (instructions done ++ insts).length := by
      simp [Builder.nextInst, assemble, instructions_append hrest]
    unfold addStatement
    rw [hstep]
    change (perform _ step >>= _) = _
    unfold perform
    rw [hpushes.step, hnext, push_assemble h hrest]
    obtain ⟨id, instName, opcode, operands, incoming, targets, block⟩ := inst
    obtain ⟨result, body⟩ := st
    obtain rfl : instName = result := hname
    obtain rfl : id = .ofSlot (instructions done ++ insts).length := hid
    obtain rfl : block = .ofNat done.length := hblock
    cases instName with
    | none => rfl
    | some result =>
      show Except.ok (Builder.setName _ _ _) = _
      rw [setName_assemble hrest hfew]
  constructor
  · intro hb
    obtain ⟨step, hstep, -⟩ := bind_eq_ok hb
    obtain ⟨inst, hid, hname, hblock, hdenotes, hpushes⟩ := scope.exists_denotes hstep
      (.ofSlot (instructions done ++ insts).length) st.result (.ofNat done.length)
    rw [hadd hstep hpushes hname hid hblock] at hb
    exact ⟨inst, hdenotes, hname,
      (numbered_append hrest).2 ⟨h, hfew, hid, hblock⟩, (Except.ok.inj hb).symm⟩
  · rintro ⟨inst, hdenotes, hname, hnumbered, rfl⟩
    obtain ⟨step, hstep, hpushes⟩ := hdenotes.exists_step
    obtain ⟨-, -, hid, hblock⟩ := (numbered_append hrest).1 hnumbered
    exact hadd hstep hpushes hname hid hblock

/-- Statements denote instructions, one by one. -/
def Scope.DenotesAll (scope : Scope) : List Statement → List Instruction → Prop :=
  List.Forall₂ fun st inst => scope.Denotes st.body inst ∧ inst.name = st.result

theorem addStatements_eq_ok_iff {statements : List Statement}
    (h : Numbered (done ++ (label, insts) :: rest)) (hrest : ∀ s ∈ rest, s.2 = [])
    (hfew : (instructions done ++ insts).length + statements.length ≤ UInt32.size) :
    statements.foldlM (addStatement scope) ⟨(done ++ (label, insts) :: rest).assemble name params,
        some (.ofNat done.length), faults⟩ = .ok b' ↔
      ∃ new, scope.DenotesAll statements new ∧
        Numbered (done ++ (label, insts ++ new) :: rest) ∧
        b' = ⟨(done ++ (label, insts ++ new) :: rest).assemble name params,
          some (.ofNat done.length), faults ++ placementFaults label insts.getLast? new⟩ := by
  induction statements generalizing insts faults with
  | nil =>
    constructor
    · intro hb
      cases hb
      exact ⟨[], .nil, by simpa using h, by simp [placementFaults]⟩
    · rintro ⟨new, hnew, -, rfl⟩
      cases hnew
      simp [placementFaults]
      rfl
  | cons st statements ih =>
    rw [List.length_cons] at hfew
    have hlength : ∀ inst, (instructions done ++ (insts ++ [inst])).length + statements.length ≤
        UInt32.size := by
      intro inst
      rw [← List.append_assoc, List.length_append, List.length_singleton]
      omega
    rw [List.foldlM_cons, bind_eq_ok_iff]
    simp only [addStatement_eq_ok_iff h hrest (by omega)]
    constructor
    · rintro ⟨-, ⟨inst, hdenotes, hname, hnumbered, rfl⟩, hb⟩
      obtain ⟨new, hnew, hnumbered, rfl⟩ := (ih hnumbered (hlength inst)).1 hb
      refine ⟨inst :: new, .cons ⟨hdenotes, hname⟩ hnew, by simpa using hnumbered, ?_⟩
      simp [placementFaults]
    · rintro ⟨new, hnew, hnumbered, rfl⟩
      cases hnew with
      | @cons _ inst _ new hinst hnew =>
        have hsplit : insts ++ inst :: new = insts ++ [inst] ++ new := by simp
        rw [hsplit] at hnumbered
        have hnumbered' := hnumbered.of_append hrest
        refine ⟨_, ⟨inst, hinst.1, hinst.2, hnumbered', rfl⟩, ?_⟩
        refine (ih hnumbered' (hlength inst)).2 ⟨new, hnew, hnumbered, ?_⟩
        simp [placementFaults]

/-! ## Sections -/

/-- Sections denote the parts of a layout, one by one. -/
def Scope.Lays (scope : Scope) : List Section → Layout → Prop :=
  List.Forall₂ fun s part => part.1 = s.label ∧ scope.DenotesAll s.statements part.2

/-- The layout of sections that have no instructions yet. -/
def blank (sections : List Section) : Layout := sections.map fun s => (s.label, [])

theorem addSection_eq_ok_iff {current : Option BlockId}
    (h : Numbered (done ++ (s.label, []) :: rest)) (hrest : ∀ s ∈ rest, s.2 = [])
    (hblock : scope.block s.label = .ok (.ofNat done.length))
    (hfew : (instructions done).length + s.statements.length ≤ UInt32.size) :
    addSection scope ⟨(done ++ (s.label, []) :: rest).assemble name params, current, faults⟩ s =
        .ok b' ↔
      ∃ new, scope.DenotesAll s.statements new ∧
        Numbered (done ++ (s.label, new) :: rest) ∧
        b' = ⟨(done ++ (s.label, new) :: rest).assemble name params,
          some (.ofNat done.length), faults ++ placementFaults s.label none new⟩ := by
  have hswitch : perform ⟨(done ++ (s.label, []) :: rest).assemble name params, current, faults⟩
      (.switchTo (.ofNat done.length)) =
        .ok ⟨(done ++ (s.label, []) :: rest).assemble name params, some (.ofNat done.length),
          faults⟩ := by
    have hcontains :
        (blocks (done ++ (s.label, []) :: rest)).contains (.ofNat done.length) = true :=
      contains_blocks h.few_blocks (by simp)
    simp [perform, Builder.step, Builder.switchTo, assemble, hcontains, Except.mapError]
  have hadd : addSection scope
      ⟨(done ++ (s.label, []) :: rest).assemble name params, current, faults⟩ s =
        s.statements.foldlM (addStatement scope)
          ⟨(done ++ (s.label, []) :: rest).assemble name params, some (.ofNat done.length),
            faults⟩ := by
    unfold addSection
    rw [hblock]
    change (perform _ (.switchTo (.ofNat done.length)) >>= _) = _
    rw [hswitch]
    rfl
  rw [hadd, addStatements_eq_ok_iff h hrest (by simpa using hfew)]
  simp

theorem addSections_eq_ok_iff {sections : List Section} {current : Option BlockId}
    {g : Function} {faults' : List BuildFault} (h : Numbered (done ++ blank sections))
    (hblock : ∀ {i : Nat} {s : Section}, sections[i]? = some s →
      scope.block s.label = .ok (.ofNat (done.length + i)))
    (hfew : (instructions done).length + (sections.flatMap Section.statements).length ≤
      UInt32.size) :
    (∃ current', sections.foldlM (addSection scope)
        ⟨(done ++ blank sections).assemble name params, current, faults⟩ =
          .ok ⟨g, current', faults'⟩) ↔
      ∃ L, scope.Lays sections L ∧ Numbered (done ++ L) ∧ g = (done ++ L).assemble name params ∧
        faults' = faults ++ L.flatMap fun part => placementFaults part.1 none part.2 := by
  -- The layout splits into what is filled and what is still blank; a section moves over.
  induction sections generalizing done faults current with
  | nil =>
    constructor
    · rintro ⟨current', hb⟩
      cases hb
      exact ⟨[], .nil, h, rfl, by simp⟩
    · rintro ⟨L, hL, -, rfl, rfl⟩
      cases hL
      exact ⟨current, by rw [List.flatMap_nil, List.append_nil faults]; rfl⟩
  | cons s sections ih =>
    have hrest : ∀ part ∈ blank sections, part.2 = [] := by simp [blank]
    have hassoc : ∀ new (L : Layout),
        done ++ (s.label, new) :: L = done ++ [(s.label, new)] ++ L := by
      simp
    have hlater : ∀ new, ∀ {i : Nat} {t : Section}, sections[i]? = some t →
        scope.block t.label = .ok (.ofNat ((done ++ [(s.label, new)]).length + i)) := by
      intro new i t ht
      rw [List.length_append, List.length_singleton, Nat.add_assoc, Nat.add_comm 1 i]
      exact hblock (i := i + 1) ht
    have hlength : ∀ new, scope.DenotesAll s.statements new →
        (instructions (done ++ [(s.label, new)])).length +
          (sections.flatMap Section.statements).length ≤ UInt32.size := by
      intro new hnew
      have hinsts : instructions (done ++ [(s.label, new)]) = instructions done ++ new :=
        instructions_append (by simp)
      rw [hinsts, List.length_append, ← hnew.length_eq]
      rw [List.flatMap_cons, List.length_append] at hfew
      omega
    have hfirst : (instructions done).length + s.statements.length ≤ UInt32.size := by
      rw [List.flatMap_cons, List.length_append] at hfew
      omega
    constructor
    · rintro ⟨current', hb⟩
      rw [List.foldlM_cons] at hb
      obtain ⟨b₁, hb₁, hb⟩ := bind_eq_ok hb
      obtain ⟨new, hnew, hnumbered, rfl⟩ :=
        (addSection_eq_ok_iff h hrest (hblock (i := 0) rfl) hfirst).1 hb₁
      rw [hassoc new] at hnumbered hb
      obtain ⟨L, hL, hnumbered, rfl, rfl⟩ :=
        (ih hnumbered (hlater new) (hlength new hnew)).1 ⟨current', hb⟩
      refine ⟨(s.label, new) :: L, .cons ⟨rfl, hnew⟩ hL, ?_, ?_, ?_⟩
      · rwa [hassoc new L]
      · rw [hassoc new L]
      · rw [List.flatMap_cons, List.append_assoc]
    · rintro ⟨L, hL, hnumbered, rfl, rfl⟩
      cases hL with
      | @cons _ part _ L hpart hL =>
        obtain ⟨label, new⟩ := part
        obtain ⟨rfl, hnew⟩ : label = s.label ∧ scope.DenotesAll s.statements new := hpart
        rw [hassoc new L] at hnumbered
        have hlengths : (blank sections).length = L.length := by
          rw [blank, List.length_map, hL.length_eq]
        have hnumbered' := hnumbered.of_blank hrest hlengths
        have hfaults : faults ++ ((s.label, new) :: L).flatMap
            (fun part => placementFaults part.1 none part.2) =
              faults ++ placementFaults s.label none new ++
                L.flatMap fun part => placementFaults part.1 none part.2 := by
          rw [List.flatMap_cons, List.append_assoc]
        obtain ⟨current', hb⟩ := (ih hnumbered' (hlater new) (hlength new hnew)).2
          ⟨L, hL, hnumbered, by rw [hassoc new L], hfaults⟩
        rw [← hassoc new (blank sections)] at hnumbered' hb
        refine ⟨current', ?_⟩
        rw [List.foldlM_cons, bind_eq_ok_iff]
        exact ⟨_, (addSection_eq_ok_iff h hrest (hblock (i := 0) rfl) hfirst).2
          ⟨new, hnew, hnumbered', rfl⟩, hb⟩

end Source

end FlowFacts
