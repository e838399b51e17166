import FlowFacts.Proofs.ParsedTrees
import FlowFacts.Proofs.PrintedForm
import FlowFacts.Proofs.ReadBack
import FlowFacts.Proofs.ResolvedModules

/-!
# Printing and parsing

A program that was parsed comes back from its text, with names for all results. For this the tree
that a function prints is compared with the tree that the function was read from: both denote the
same instructions, since every printed name stands for what it was printed for.

Main results:

* `Source.Resolved.fits_tree`: the tree that a function prints can be read back.
* `Source.Resolved.resolve_tree`: it denotes the function.
* `Module.parse_text`: modules and their texts.
-/

namespace FlowFacts

open Source

/-! ## Lists side by side -/

theorem exists_getLast_of_forall₂ {α β : Type} {R : α → β → Prop} {xs : List α} {ys : List β}
    (h : List.Forall₂ R xs ys) {y : β} (hy : ys.getLast? = some y) :
    ∃ x, xs.getLast? = some x ∧ R x y := by
  rw [← List.head?_reverse] at hy ⊢
  have hreverse := List.rel_reverse h
  generalize xs.reverse = xs' at hreverse ⊢
  generalize ys.reverse = ys' at hreverse hy
  cases hreverse with
  | nil => cases hy
  | cons hxy _ =>
    cases hy
    exact ⟨_, rfl, hxy⟩

theorem isChain_of_forall₂ {α β : Type} {R : α → β → Prop} {S : α → α → Prop} {S' : β → β → Prop}
    {xs : List α} {ys : List β} (h : List.Forall₂ R xs ys)
    (hS : ∀ {a a' : α} {b b' : β}, R a b → R a' b' → S a a' → S' b b') (hxs : xs.IsChain S) :
    ys.IsChain S' := by
  induction h with
  | nil => exact .nil
  | cons hab h ih =>
    cases h with
    | nil => exact .singleton _
    | cons hab' h =>
      rw [List.isChain_cons_cons] at hxs ⊢
      exact ⟨hS hab hab' hxs.1, ih hxs.2⟩

/-! ## Naming and layouts -/

namespace Layout

variable {L : Layout} {name : String} {params : List String}

/-- The layout with names for all results. -/
def named (L : Layout) : Layout := L.map fun part => (part.1, part.2.map Instruction.named)

theorem instructions_named (L : Layout) :
    L.named.instructions = L.instructions.map Instruction.named := by
  simp [named, instructions, List.flatMap_map, List.map_flatMap]

theorem blocks_named (L : Layout) : L.named.blocks = L.blocks := by
  refine congrArg OrderedMap.ofList (List.ext_getElem? fun i => ?_)
  simp [named, List.getElem?_mapIdx, block, Function.comp_def]

theorem assemble_named (L : Layout) (name : String) (params : List String) :
    L.named.assemble name params = (L.assemble name params).named := by
  simp [assemble, Function.named, blocks_named, instructions_named]

theorem Numbered.named (h : L.Numbered) : L.named.Numbered := by
  refine ⟨by simpa [Layout.named] using h.few_blocks, ?_, ?_, ?_⟩
  · simpa [instructions_named] using h.few_instructions
  · intro k inst hk
    rw [instructions_named, List.getElem?_map] at hk
    obtain ⟨inst, hinst, rfl⟩ := Option.map_eq_some_iff.1 hk
    rw [Instruction.named_id, h.id_eq hinst]
  · intro i part hpart
    rw [Layout.named, List.getElem?_map] at hpart
    obtain ⟨part, hget, rfl⟩ := Option.map_eq_some_iff.1 hpart
    rw [List.forall_mem_map]
    intro inst hinst
    rw [Instruction.named_block, h.block_eq hget inst hinst]

theorem Sound.named (h : L.Sound) : L.named.Sound := by
  refine ⟨by simpa [Layout.named] using h.nonempty, ?_, ?_, ?_⟩
  · unfold Layout.named
    rw [List.forall_mem_map]
    intro part hpart
    rw [List.isChain_map]
    refine (h.order part hpart).imp fun a b hab => ?_
    simpa [MayFollow] using hab
  · unfold Layout.named
    rw [List.forall_mem_map]
    intro part hpart
    obtain ⟨inst, hlast, hterminator⟩ := h.terminated part hpart
    refine ⟨inst.named, ?_, by simpa using hterminator⟩
    rw [List.getLast?_map, hlast]
    rfl
  · rw [instructions_named, blocks_named, List.forall_mem_map]
    intro inst hinst
    simpa using h.known inst hinst

end Layout

namespace Function

theorem inst?_named (f : Function) (id : InstId) :
    f.named.inst? id = (f.inst? id).map Instruction.named := by
  simp [inst?, named]

theorem linked_named (f : Function) : f.named.linked = f.linked.named := by
  have htargets : f.named.targetsOf = f.targetsOf := by
    funext block
    unfold targetsOf
    cases hlast : block.last? with
    | none => rfl
    | some id =>
      simp only [Option.bind_some, inst?_named]
      cases f.inst? id with
      | none => rfl
      | some inst =>
        show (if inst.named.isTerminator then inst.named.targets else []) = _
        rw [Instruction.named_isTerminator, Instruction.named_targets]
  have htransfers : f.named.transfers = f.transfers := by
    unfold transfers
    rw [htargets]
    rfl
  unfold linked
  rw [htransfers]
  rfl

end Function

/-! ## Trees of laid out functions -/

namespace Layout

variable {L : Layout} {name : String} {params : List String} {inst : Instruction}

theorem labelName_linked (h : L.Numbered) {i : Nat} {part : String × List Instruction}
    (hpart : L[i]? = some part) :
    (L.assemble name params).linked.labelName (.ofNat i) = part.1 := by
  obtain ⟨hi, rfl⟩ := List.getElem?_eq_some_iff.1 hpart
  have hblock : (L.assemble name params).block? (.ofNat i) = some (block i (L.get ⟨i, hi⟩)) :=
    get?_blocks h.few_blocks hi
  rw [Function.labelName, Function.block?_linked, hblock]
  rfl

theorem isSome_block?_linked (id : BlockId) :
    ((L.assemble name params).linked.block? id).isSome = L.blocks.contains id := by
  rw [Function.block?_linked, Option.isSome_map]
  exact OrderedMap.isSome_get? _ _

/-- The blocks and what they list are the parts of the layout. -/
theorem parts_linked (h : L.Numbered) :
    (L.assemble name params).linked.blocks.values.map (fun block =>
      (block.label, (L.assemble name params).linked.instructionsOf block)) = L := by
  have hlinks : ∀ f : Function, f.linked.blocks.values.map (fun block =>
      (block.label, f.linked.instructionsOf block)) =
        f.blocks.values.map fun block => (block.label, f.instructionsOf block) := by
    intro f
    simp only [OrderedMap.values, Function.linked, OrderedMap.mapWithKey, List.map_map]
    rfl
  rw [hlinks]
  show L.blocks.values.map _ = _
  rw [values_blocks h.few_blocks]
  refine List.ext_getElem? fun i => ?_
  rw [List.getElem?_map, List.getElem?_mapIdx]
  cases hpart : L[i]? with
  | none => rfl
  | some part =>
    have hinsts : (part.2.map Instruction.id).filterMap (L.assemble name params).inst? = part.2 :=
      filterMap_inst? h fun inst => mem_instructions (List.mem_of_getElem? hpart)
    show some (part.1, (part.2.map Instruction.id).filterMap (L.assemble name params).inst?) = _
    rw [hinsts]

theorem sections_tree (h : L.Numbered) :
    (L.assemble name params).linked.tree.sections =
      L.map fun part => ⟨part.1, part.2.map (L.assemble name params).linked.statement⟩ := by
  have hparts := congrArg (List.map fun part : String × List Instruction =>
    (⟨part.1, part.2.map (L.assemble name params).linked.statement⟩ : Source.Section))
    (@parts_linked L name params h)
  rw [List.map_map] at hparts
  exact hparts

theorem statements_tree (h : L.Numbered) :
    (L.assemble name params).linked.tree.statements =
      L.instructions.map (L.assemble name params).linked.statement := by
  rw [Definition.statements, sections_tree h, List.flatMap_map, instructions, List.map_flatMap]

end Layout

/-! ## Functions that come back from their texts -/

/-- An instruction that comes back from its text, apart from the names in it. -/
@[mk_iff]
structure Instruction.Reprintable (inst : Instruction) : Prop where
  /-- Nothing but a result has a name. -/
  unnamed : inst.opcode = .store ∨ inst.isTerminator = true → inst.name = none
  merge : inst.opcode = .phi → inst.incomingPairs ≠ []
  jump : inst.opcode = .br ∨ inst.opcode = .switch → inst.targets ≠ []
  call : inst.opcode = .call → ∃ callee, inst.operand? 0 = some (.global callee)

instance (inst : Instruction) : Decidable (∃ callee, inst.operand? 0 = some (.global callee)) :=
  match inst.operand? 0 with
  | some (.global callee) => isTrue ⟨callee, rfl⟩
  | some (.inst _) | some (.arg _) | some (.const _) | some .null | some .undefined | none =>
    isFalse fun ⟨_, h⟩ => nomatch h

instance : DecidablePred Instruction.Reprintable := fun inst =>
  decidable_of_iff' _ (Instruction.reprintable_iff inst)

/-- A function that comes back from its text: its instructions do, and the names that nameless
    results print under are not taken. -/
@[mk_iff]
structure Function.Reprintable (f : Function) : Prop where
  instructions : ∀ inst ∈ f.insts, inst.Reprintable
  fresh : ∀ inst ∈ f.insts, inst.opcode.hasResult = true → inst.name = none →
    "." ++ toString inst.id.slot ∉ f.params ∧
      ∀ other ∈ f.insts, other.name ≠ some ("." ++ toString inst.id.slot)

instance : DecidablePred Function.Reprintable := fun f =>
  decidable_of_iff' _ (Function.reprintable_iff f)

theorem Instruction.Reprintable.not_isBare {inst : Instruction} (h : inst.Reprintable) :
    ¬ inst.IsBare := by
  rintro ⟨hop | hop, hincoming, htargets⟩
  · exact h.merge hop (by rw [incomingPairs, hincoming, List.zip_nil_right])
  · exact h.jump (.inl hop) htargets

theorem Instruction.Reprintable.hasResult {inst : Instruction} (h : inst.Reprintable)
    {name : String} (hname : inst.name = some name) : inst.opcode.hasResult = true := by
  by_contra hnot
  have hclass : inst.opcode = .store ∨ inst.isTerminator = true := by
    unfold isTerminator
    cases hop : inst.opcode <;> simp_all [Opcode.hasResult, Opcode.isTerminator]
  rw [h.unnamed hclass] at hname
  cases hname

/-- Two results whose names differ, if both have one, differ in print. -/
theorem Function.Reprintable.resultName_ne {f : Function} (h : f.Reprintable) {a b : Instruction}
    (ha : a ∈ f.insts) (hb : b ∈ f.insts) (hra : a.opcode.hasResult = true)
    (hrb : b.opcode.hasResult = true) (hid : a.id ≠ b.id)
    (hne : ∀ {x y : String}, a.name = some x → b.name = some y → x ≠ y) :
    a.resultName ≠ b.resultName := by
  unfold Instruction.resultName
  cases hna : a.name with
  | none =>
    cases hnb : b.name with
    | none =>
      intro heq
      have hslot := toString_nat_injective ((String.append_right_inj _).1 heq)
      exact hid (InstId.slot_injective hslot)
    | some y =>
      rintro rfl
      exact (h.fresh a ha hra hna).2 b hb hnb
  | some x =>
    cases hnb : b.name with
    | none =>
      rintro rfl
      exact (h.fresh b hb hrb hnb).2 a ha hna
    | some y => exact hne hna hnb

theorem Instruction.Reprintable.named_name {inst : Instruction} (h : inst.Reprintable) :
    inst.named.name = inst.printedName := by
  unfold named printedName
  split_ifs with hresult
  · rfl
  · cases hname : inst.name with
    | none => rfl
    | some name => exact absurd (h.hasResult hname) hresult

/-- No block ends with a keyword alone in front of a label that could be taken for an operand. -/
def Function.Closed (f : Function) : Prop :=
  f.blocks.values.IsChain fun block next =>
    (∃ inst ∈ (f.instructionsOf block).getLast?, inst.IsBare) → ¬ StartsTerm next.label

/-- A function whose text follows the grammar line by line. -/
structure Function.Legible (f : Function) : Prop where
  lines : ∀ inst ∈ f.insts, inst.IsLegible
  closed : f.Closed

theorem Function.Reprintable.closed {f : Function} (h : f.Reprintable) : f.Closed := by
  refine List.isChain_iff_getElem.2 fun i _ => ?_
  rintro ⟨inst, hinst, hbare⟩
  have hmem := Function.mem_insts_of_instructionsOf (List.mem_of_getLast? hinst)
  exact absurd hbare (h.instructions inst hmem).not_isBare

namespace Source

variable {d : Definition} {scope : Scope} {L : Layout} {f : Function} {inst : Instruction}

/-- What a text can say about an instruction has a text of its own, unless it is a jump by value
    without targets or a call of something else than a global symbol. -/
theorem Scope.Denotes.isLegible {body : Body} (h : scope.Denotes body inst)
    (hswitch : inst.opcode = .switch → inst.targets ≠ [])
    (hcall : inst.opcode = .call → ∃ callee, inst.operand? 0 = some (.global callee)) :
    inst.IsLegible := by
  by_cases hbare : inst.IsBare
  · exact .inr hbare
  refine .inl ?_
  obtain ⟨id, name, opcode, operands, incoming, targets, block⟩ := inst
  unfold Denotes at h
  unfold Instruction.IsWritten
  cases h with
  | @phi _ pairs h =>
    refine .phi fun hnil => hbare ⟨.inl rfl, ?_, rfl⟩
    exact List.map_eq_nil_iff.2 hnil
  | condBr hc ht he => exact .branch _ _ _
  | br h => exact .jump _
  | switch hv hd h => exact .switch _ _ _
  | call callee h => exact .call callee _
  | generic opcode h =>
    by_cases hgeneric : opcode.isGeneric = true
    · exact .generic hgeneric _
    · cases opcode with
      | phi => exact absurd ⟨.inl rfl, rfl, rfl⟩ hbare
      | br => exact absurd ⟨.inr rfl, rfl, rfl⟩ hbare
      | switch => exact absurd rfl (hswitch rfl)
      | call =>
        obtain ⟨callee, hcallee⟩ := hcall rfl
        cases operands with
        | nil => cases hcallee
        | cons o operands =>
          cases hcallee
          exact .call callee operands
      | _ => exact absurd rfl hgeneric

/-- What a text can say about an instruction can be written again. -/
theorem Scope.Denotes.isWritten {body : Body} (h : scope.Denotes body inst)
    (hprint : inst.Reprintable) : inst.IsWritten := by
  refine (h.isLegible (fun hop => hprint.jump (.inr hop)) hprint.call).resolve_right ?_
  exact hprint.not_isBare

/-- If the printed instruction could go on, so could the one it was read from, or it has lost its
    operands in print. -/
theorem Scope.Denotes.open_of_body {body : Body} (h : scope.Denotes body inst)
    (hopen : (f.body inst).Open) : body.Open ∨ inst.IsBare := by
  obtain ⟨id, name, opcode, operands, incoming, targets, block⟩ := inst
  obtain ⟨word, hbody⟩ := hopen
  unfold Denotes at h
  cases h with
  | @phi _ pairs h =>
    by_cases hpairs : pairs = []
    · exact .inr ⟨.inl rfl, List.map_eq_nil_iff.2 hpairs, rfl⟩
    · rw [Function.body_phi f id name block hpairs] at hbody
      cases hbody
  | condBr hc ht he | br h | switch hv hd h | call callee h => cases hbody
  | @generic _ ts _ h =>
    cases operands with
    | nil =>
      rw [List.forall₂_nil_right_iff] at h
      exact .inl ⟨_, by rw [h]⟩
    | cons o operands =>
      cases opcode with
      | phi => exact .inr ⟨.inl rfl, rfl, rfl⟩
      | br => exact .inr ⟨.inr rfl, rfl, rfl⟩
      | call => cases o <;> cases hbody
      | _ => cases hbody

/-- The operands of an instruction come from the text. -/
theorem Scope.Denotes.exists_term {body : Body} (h : scope.Denotes body inst)
    (hnamed : body.WellNamed) {o : Operand} (ho : o ∈ inst.operands) :
    ∃ t : Term, t.Printable ∧ scope.operand t = .ok o := by
  obtain ⟨id, name, opcode, operands, incoming, targets, block⟩ := inst
  unfold Denotes at h
  cases h with
  | @phi incoming pairs h =>
    obtain ⟨q, hq, rfl⟩ := List.mem_map.1 ho
    obtain ⟨p, hp, hpq⟩ := exists_of_forall₂ h hq
    exact ⟨p.1, (hnamed p hp).1, hpq.1⟩
  | condBr hc ht he =>
    rw [List.mem_singleton.1 ho]
    exact ⟨_, hnamed.1, hc⟩
  | br h => cases ho
  | switch hv hd h =>
    rcases List.mem_cons.1 ho with rfl | ho
    · exact ⟨_, hnamed.1, hv⟩
    · obtain ⟨q, hq, rfl⟩ := List.mem_map.1 ho
      obtain ⟨c, hc, hcq⟩ := exists_of_forall₂ h hq
      refine ⟨.integer c.1, (hnamed.2.2 c hc).1, ?_⟩
      show (scope.integer c.1 >>= _) = _
      rw [hcq.1]
      rfl
  | call callee h =>
    rcases List.mem_cons.1 ho with rfl | ho
    · exact ⟨.global callee, hnamed.1, rfl⟩
    · obtain ⟨t, ht, hto⟩ := exists_of_forall₂ h ho
      exact ⟨t, hnamed.2 t ht, hto⟩
  | generic opcode h =>
    obtain ⟨t, ht, hto⟩ := exists_of_forall₂ h ho
    exact ⟨t, hnamed t ht, hto⟩

/-- A definition with its names looked up in a scope, its instructions laid out, and the function
    that it denotes. -/
structure Resolved (d : Definition) (scope : Scope) (L : Layout) (f : Function) : Prop where
  fits : d.Fits Body.WellNamed
  scope_eq : Scope.ofDefinition d = .ok scope
  lays : scope.Lays d.sections L
  numbered : L.Numbered
  sound : L.Sound
  function_eq : f = (L.assemble d.name d.params).linked

/-- A definition that denotes a function is resolved in some scope, if numbers do not run out. -/
theorem Definition.exists_resolved (hfits : d.Fits Body.WellNamed)
    (h : d.resolve = .ok f) (hblocks : f.blocks.size < UInt32.size)
    (hinsts : f.insts.size ≤ UInt32.size) : ∃ scope L, Resolved d scope L f := by
  obtain ⟨hstatements, hsections⟩ := Definition.resolve_sizes h
  obtain ⟨scope, L, hscope, hlays, hnumbered, hsound, hf⟩ :=
    (Definition.resolve_eq_ok_iff (Nat.le_of_lt (hsections hblocks)) (hstatements ▸ hinsts)).1 h
  exact ⟨scope, L, hfits, hscope, hlays, hnumbered, hsound, hf⟩

namespace Resolved

theorem name_eq (h : Resolved d scope L f) : f.name = d.name := by
  rw [h.function_eq]
  rfl

theorem params_eq (h : Resolved d scope L f) : f.params = d.params := by
  rw [h.function_eq]
  rfl

theorem insts_eq (h : Resolved d scope L f) : f.insts = L.instructions.toArray := by
  rw [h.function_eq]
  rfl

theorem mem_insts (h : Resolved d scope L f) : inst ∈ f.insts ↔ inst ∈ L.instructions := by
  rw [h.insts_eq, List.mem_toArray]

theorem denotesAll (h : Resolved d scope L f) : scope.DenotesAll d.statements L.instructions :=
  List.rel_flatMap h.lays fun _ _ hpart => hpart.2

/-- Every instruction comes from a statement. -/
theorem exists_statement (h : Resolved d scope L f) (hinst : inst ∈ L.instructions) :
    ∃ st : Statement, st.Fits Body.WellNamed ∧ scope.Denotes st.body inst ∧
      inst.name = st.result := by
  obtain ⟨st, hst, hdenotes⟩ := exists_of_forall₂ h.denotesAll hinst
  obtain ⟨s, hs, hst⟩ := List.mem_flatMap.1 hst
  exact ⟨st, (h.fits.sections s hs).statements st hst, hdenotes⟩

theorem labels_eq (h : Resolved d scope L f) : d.sections.map Section.label = L.map Prod.fst :=
  map_eq_of_forall₂ h.lays fun hpart => hpart.1.symm

theorem sections_tree (h : Resolved d scope L f) :
    f.tree.sections = L.map fun part => ⟨part.1, part.2.map f.statement⟩ := by
  rw [h.function_eq]
  exact Layout.sections_tree h.numbered

theorem labels_tree (h : Resolved d scope L f) :
    f.tree.sections.map Section.label = d.sections.map Section.label := by
  rw [h.labels_eq, h.sections_tree, List.map_map]
  rfl

theorem parts (h : Resolved d scope L f) :
    f.blocks.values.map (fun block => (block.label, f.instructionsOf block)) = L := by
  rw [h.function_eq]
  exact Layout.parts_linked h.numbered

theorem labels_parts (h : Resolved d scope L f) :
    L.map Prod.fst = f.blocks.values.map Block.label := by
  conv_lhs => rw [← h.parts, List.map_map]
  rfl

theorem isName_label (h : Resolved d scope L f) {part : String × List Instruction}
    (hpart : part ∈ L) : IsName part.1 := by
  have hmem : part.1 ∈ L.map Prod.fst := List.mem_map_of_mem hpart
  rw [← h.labels_eq] at hmem
  obtain ⟨s, hs, hlabel⟩ := List.mem_map.1 hmem
  rw [← hlabel]
  exact (h.fits.sections s hs).label

theorem wellNamed (h : Resolved d scope L f) : f.WellNamed := by
  refine ⟨?_, ?_, ?_, ?_⟩
  · rw [h.name_eq]
    exact h.fits.name
  · rw [h.params_eq]
    exact h.fits.params
  · intro inst hinst
    obtain ⟨st, hst, -, hname⟩ := h.exists_statement (h.mem_insts.1 hinst)
    rw [hname]
    exact hst.result
  · intro block hblock
    have hmem := List.mem_map_of_mem (f := Block.label) hblock
    rw [← h.labels_parts] at hmem
    obtain ⟨part, hpart, hlabel⟩ := List.mem_map.1 hmem
    exact hlabel ▸ h.isName_label hpart

/-- A name that stands for an instruction is the name of that instruction. -/
theorem exists_inst (h : Resolved d scope L f) {name : String} {id : InstId}
    (hid : scope.value name = .ok (.inst id)) :
    ∃ inst, f.inst? id = some inst ∧ inst.name = some name := by
  rw [Scope.value_eq_ok_iff, (Scope.ofDefinition_eq_ok_iff.1 h.scope_eq).2.1] at hid
  rcases List.mem_append.1 hid with hmem | hmem
  · obtain ⟨i, -, heq⟩ := mem_paramEntries.1 hmem
    cases heq
  · obtain ⟨k, st, hst, hresult, heq⟩ := mem_resultEntries.1 hmem
    cases heq
    obtain ⟨inst, hinst, -, hname⟩ := exists_getElem?_of_forall₂ h.denotesAll hst
    have hk := (List.getElem?_eq_some_iff.1 hinst).1
    have hfew := h.numbered.few_instructions
    refine ⟨inst, ?_, hname.trans hresult⟩
    rw [Function.inst?, h.insts_eq, Nat.zero_add, InstId.slot_ofSlot (by omega),
      List.getElem?_toArray, hinst]

/-- An instruction that is used has a name. -/
theorem exists_name (h : Resolved d scope L f) {t : Term} {id : InstId}
    (ht : scope.operand t = .ok (.inst id)) :
    ∃ inst name, f.inst? id = some inst ∧ inst.name = some name := by
  cases t with
  | value name =>
    obtain ⟨inst, hinst, hname⟩ := h.exists_inst ht
    exact ⟨inst, name, hinst, hname⟩
  | integer literal =>
    obtain ⟨n, -, hn⟩ := bind_eq_ok ht
    cases hn
  | global name | null | undefined => cases ht

/-- What a text refers to has a name. -/
theorem known (h : Resolved d scope L f) {t : Term} {o : Operand} (ht : t.Printable)
    (ho : scope.operand t = .ok o) : f.Known o := by
  cases t with
  | value name =>
    cases o with
    | inst id =>
      obtain ⟨inst, hinst, -⟩ := h.exists_inst ho
      exact Option.isSome_iff_exists.2 ⟨inst, hinst⟩
    | arg position =>
      have hmem := Scope.value_eq_ok_iff.1 ho
      rw [(Scope.ofDefinition_eq_ok_iff.1 h.scope_eq).2.1] at hmem
      rcases List.mem_append.1 hmem with hmem | hmem
      · obtain ⟨i, hi, heq⟩ := mem_paramEntries.1 hmem
        cases heq
        have hlt := (List.getElem?_eq_some_iff.1 hi).1
        rw [Nat.zero_add, h.function_eq]
        -- The position may have wrapped around, which makes it smaller.
        show (UInt32.ofNat i).toNat < d.params.length
        exact Nat.lt_of_le_of_lt (Nat.mod_le _ _) hlt
      · obtain ⟨k, st, -, -, heq⟩ := mem_resultEntries.1 hmem
        cases heq
    | global name' =>
      have hmem := Scope.value_eq_ok_iff.1 ho
      rw [(Scope.ofDefinition_eq_ok_iff.1 h.scope_eq).2.1] at hmem
      rcases List.mem_append.1 hmem with hmem | hmem
      · obtain ⟨i, -, heq⟩ := mem_paramEntries.1 hmem
        cases heq
      · obtain ⟨k, st, -, -, heq⟩ := mem_resultEntries.1 hmem
        cases heq
    | const value | null | undefined => trivial
  | global name =>
    cases ho
    exact ht
  | integer literal =>
    obtain ⟨n, -, hn⟩ := bind_eq_ok ho
    cases hn
    trivial
  | null =>
    cases ho
    trivial
  | undefined =>
    cases ho
    trivial

theorem known_of_mem (h : Resolved d scope L f) (hinst : inst ∈ f.insts) {o : Operand}
    (ho : o ∈ inst.operands) : f.Known o := by
  obtain ⟨st, hst, hdenotes, -⟩ := h.exists_statement (h.mem_insts.1 hinst)
  obtain ⟨t, ht, hto⟩ := hdenotes.exists_term hst.body ho
  exact h.known ht hto

theorem readable (h : Resolved d scope L f) (hprint : f.Reprintable) {t : Term} {o : Operand}
    (ht : t.Printable) (ho : scope.operand t = .ok o) : f.Readable o := by
  refine ⟨h.known ht ho, fun {id inst} heq hinst => ?_⟩
  subst heq
  obtain ⟨inst', name, hinst', hname⟩ := h.exists_name ho
  obtain rfl := Option.some.inj (hinst.symm.trans hinst')
  exact (hprint.instructions inst (Array.mem_of_getElem? hinst)).hasResult hname

theorem prints (h : Resolved d scope L f) (hinst : inst ∈ f.insts) (hlegible : inst.IsLegible) :
    f.Prints inst := by
  refine ⟨hlegible, fun o ho => h.known_of_mem hinst ho, ?_⟩
  intro id hid
  rw [h.function_eq, Layout.isSome_block?_linked]
  exact h.sound.known inst (h.mem_insts.1 hinst) id hid

theorem reads (h : Resolved d scope L f) (hprint : f.Reprintable) (hinst : inst ∈ f.insts) :
    f.Reads inst := by
  obtain ⟨st, hst, hdenotes, -⟩ := h.exists_statement (h.mem_insts.1 hinst)
  have hwritten := hdenotes.isWritten (hprint.instructions inst hinst)
  refine ⟨hwritten, ?_, (h.prints hinst (.inl hwritten)).blocks⟩
  intro o ho
  obtain ⟨t, ht, hto⟩ := hdenotes.exists_term hst.body ho
  exact h.readable hprint ht hto

theorem isName_printedName (h : Resolved d scope L f) (hinst : inst ∈ f.insts) :
    ∀ name ∈ inst.printedName, IsName name := by
  intro name hname
  obtain ⟨-, rfl⟩ := Instruction.printedName_eq_some.1 hname
  exact Instruction.isName_resultName (h.wellNamed.results inst hinst)

theorem fits_statement (h : Resolved d scope L f) (hinst : inst ∈ f.insts)
    (hlegible : inst.IsLegible) : (f.statement inst).Fits Body.Printable :=
  ⟨h.isName_printedName hinst, Function.printable_body h.wellNamed (h.prints hinst hlegible)⟩

theorem fits_section (h : Resolved d scope L f) {label : String} {insts : List Instruction}
    (hlabel : IsName label) (hinsts : ∀ inst ∈ insts, inst ∈ f.insts ∧ inst.IsLegible) :
    Section.Fits Body.Printable ⟨label, insts.map f.statement⟩ := by
  refine ⟨hlabel, fun st hst => ?_⟩
  obtain ⟨inst, hinst, rfl⟩ := List.mem_map.1 hst
  exact h.fits_statement (hinsts inst hinst).1 (hinsts inst hinst).2

/-- No instruction is open in print that was not so in the text, unless it has lost its operands. -/
theorem isChain_open (h : Resolved d scope L f) : L.IsChain fun part part' =>
    (∃ inst ∈ part.2.getLast?, (f.body inst).Open ∧ ¬ inst.IsBare) → ¬ StartsTerm part'.1 := by
  refine isChain_of_forall₂ h.lays ?_ h.fits.closed
  rintro s t part part' ⟨-, hpart⟩ ⟨hlabel, -⟩ hclosed ⟨inst, hinst, hopen, hnot⟩
  obtain ⟨st, hst, hdenotes, -⟩ := exists_getLast_of_forall₂ hpart hinst
  rw [hlabel]
  exact hclosed ⟨st, hst, (hdenotes.open_of_body hopen).resolve_right hnot⟩

/-- The tree that a function prints can be read back, if each instruction has a text and no
    keyword alone takes the next label for an operand. -/
theorem printable_tree (h : Resolved d scope L f) (hlegible : f.Legible) :
    f.tree.Fits Body.Printable := by
  refine ⟨h.wellNamed.name, h.wellNamed.params, ?_, ?_⟩
  · rw [h.sections_tree, List.forall_mem_map]
    intro part hpart
    refine h.fits_section (h.isName_label hpart) fun inst hinst => ?_
    have hmem := h.mem_insts.2 (Layout.mem_instructions hpart hinst)
    exact ⟨hmem, hlegible.lines inst hmem⟩
  · have hbare : L.IsChain fun part part' =>
        (∃ inst ∈ part.2.getLast?, inst.IsBare) → ¬ StartsTerm part'.1 := by
      rw [← h.parts, List.isChain_map]
      exact hlegible.closed
    have hopen := h.isChain_open
    rw [h.sections_tree, List.isChain_map]
    rw [List.isChain_iff_getElem] at hbare hopen ⊢
    rintro i hi ⟨st, hst, hst'⟩
    dsimp only at hst
    rw [List.getLast?_map] at hst
    obtain ⟨inst, hinst, rfl⟩ := Option.map_eq_some_iff.1 hst
    by_cases hinst' : inst.IsBare
    · exact hbare i hi ⟨inst, hinst, hinst'⟩
    · exact hopen i hi ⟨inst, hinst, hst', hinst'⟩

theorem legible (h : Resolved d scope L f) (hprint : f.Reprintable) : f.Legible :=
  ⟨fun _ hinst => .inl (h.reads hprint hinst).written, hprint.closed⟩

theorem fits_tree (h : Resolved d scope L f) (hprint : f.Reprintable) :
    f.tree.Fits Body.Printable :=
  h.printable_tree (h.legible hprint)

theorem text_tree (h : Resolved d scope L f) (hprint : f.Reprintable) : f.tree.text = f.text :=
  f.text_tree (h.legible hprint).lines

/-! ### The scope of the printed tree -/

theorem statements_tree (h : Resolved d scope L f) :
    f.tree.statements = L.instructions.map f.statement := by
  rw [h.function_eq]
  exact Layout.statements_tree h.numbered

theorem few_tree (h : Resolved d scope L f) :
    f.tree.sections.length ≤ UInt32.size ∧ f.tree.statements.length ≤ UInt32.size := by
  rw [h.sections_tree, h.statements_tree, List.length_map, List.length_map]
  exact ⟨h.numbered.few_blocks, h.numbered.few_instructions⟩

theorem nodup_name (h : Resolved d scope L f) :
    (f.params ++ L.instructions.filterMap Instruction.name).Nodup := by
  have hmap : d.statements.map Statement.result = L.instructions.map Instruction.name :=
    map_eq_of_forall₂ h.denotesAll fun hst => hst.2.symm
  have hnames : d.statements.filterMap Statement.result =
      L.instructions.filterMap Instruction.name :=
    calc d.statements.filterMap Statement.result
      _ = (d.statements.map Statement.result).filterMap id := by rw [List.filterMap_map]; rfl
      _ = (L.instructions.map Instruction.name).filterMap id := by rw [hmap]
      _ = L.instructions.filterMap Instruction.name := by rw [List.filterMap_map]; rfl
  have hkeys := scope.values.nodupKeys
  rw [(Scope.ofDefinition_eq_ok_iff.1 h.scope_eq).2.1, Definition.valueEntries, List.map_append,
    keys_paramEntries, keys_resultEntries, hnames, ← h.params_eq] at hkeys
  exact hkeys

/-- Printed names are as different as the names were. -/
theorem nodup_printedName (h : Resolved d scope L f) (hprint : f.Reprintable) :
    (f.params ++ L.instructions.filterMap Instruction.printedName).Nodup := by
  obtain ⟨hparams, hnames, hdisjoint⟩ := List.nodup_append.1 h.nodup_name
  refine List.nodup_append.2 ⟨hparams, ?_, ?_⟩
  · rw [List.Nodup, List.pairwise_filterMap] at hnames ⊢
    refine List.Pairwise.imp_of_mem ?_ (hnames.and h.numbered.pairwise_id)
    rintro a b ha hb ⟨hne, hid⟩ x hx y hy
    obtain ⟨hra, rfl⟩ := Instruction.printedName_eq_some.1 hx
    obtain ⟨hrb, rfl⟩ := Instruction.printedName_eq_some.1 hy
    exact hprint.resultName_ne (h.mem_insts.2 ha) (h.mem_insts.2 hb) hra hrb hid
      fun hxa hyb => hne _ hxa _ hyb
  · intro p hp y hy
    obtain ⟨inst, hinst, hname⟩ := List.mem_filterMap.1 hy
    obtain ⟨hresult, rfl⟩ := Instruction.printedName_eq_some.1 hname
    unfold Instruction.resultName
    cases hn : inst.name with
    | none =>
      rintro rfl
      exact (hprint.fresh inst (h.mem_insts.2 hinst) hresult hn).1 hp
    | some x => exact hdisjoint p hp x (List.mem_filterMap.2 ⟨inst, hinst, hn⟩)

theorem labelEntries_tree (h : Resolved d scope L f) :
    labelEntries 0 f.tree.sections = labelEntries 0 d.sections := by
  refine List.ext_getElem? fun i => ?_
  have hget := congrArg (fun labels => labels[i]?) h.labels_tree
  simp only [List.getElem?_map] at hget
  simp only [labelEntries, List.getElem?_mapIdx]
  cases hs : f.tree.sections[i]? <;> cases ht : d.sections[i]? <;> simp_all

/-- The printed tree has a scope, and in it every printed name stands for what it was printed
    for. -/
theorem exists_scope_tree (h : Resolved d scope L f) (hprint : f.Reprintable) :
    ∃ scope', Scope.ofDefinition f.tree = .ok scope' ∧
      (∀ {o : Operand}, f.Readable o → scope'.operand (f.term o) = .ok o) ∧
      ∀ {id : BlockId}, L.blocks.contains id = true → scope'.block (f.labelName id) = .ok id := by
  have hkeys : (f.tree.valueEntries.map Prod.fst).Nodup := by
    rw [Definition.valueEntries, List.map_append, keys_paramEntries, keys_resultEntries,
      h.statements_tree, List.filterMap_map]
    exact h.nodup_printedName hprint
  have hscope : Scope.ofDefinition f.tree =
      .ok ⟨f.name, ⟨f.tree.valueEntries, hkeys⟩, scope.blocks⟩ := by
    refine Scope.ofDefinition_eq_ok_iff.2 ⟨rfl, rfl, ?_⟩
    rw [h.labelEntries_tree]
    exact (Scope.ofDefinition_eq_ok_iff.1 h.scope_eq).2.2
  refine ⟨_, hscope, ?_, ?_⟩
  · intro o ho
    refine Function.operand_term ?_ ?_ ho
    · intro i name hi
      refine Scope.value_eq_ok_iff.2 (List.mem_append_left _ (mem_paramEntries.2 ⟨i, hi, ?_⟩))
      rw [Nat.zero_add]
    · intro id inst hinst hresult
      refine Scope.value_eq_ok_iff.2 (List.mem_append_right _ (mem_resultEntries.2
        ⟨id.slot, f.statement inst, ?_, Instruction.printedName_eq_some.2 ⟨hresult, rfl⟩, ?_⟩))
      · rw [Function.inst?, h.insts_eq, List.getElem?_toArray] at hinst
        rw [h.statements_tree, List.getElem?_map, hinst]
        rfl
      · rw [Nat.zero_add, InstId.ofSlot_slot]
  · intro id hid
    obtain ⟨i, part, hpart, rfl⟩ := Layout.exists_of_contains h.numbered.few_blocks hid
    have hlabel : f.labelName (.ofNat i) = part.1 := by
      rw [h.function_eq]
      exact Layout.labelName_linked h.numbered hpart
    rw [Scope.block_eq_ok_iff, (Scope.ofDefinition_eq_ok_iff.1 hscope).2.2, mem_labelEntries,
      h.sections_tree]
    refine ⟨i, _, by rw [List.getElem?_map, hpart]; rfl, hlabel.symm, by rw [Nat.zero_add]⟩

/-- The tree that a function prints denotes the function, with names for all results. -/
theorem resolve_tree (h : Resolved d scope L f) (hprint : f.Reprintable) :
    f.tree.resolve = .ok f.named := by
  obtain ⟨hsections, hstatements⟩ := h.few_tree
  obtain ⟨scope', hscope', hoperand, hblock⟩ := h.exists_scope_tree hprint
  refine (Definition.resolve_eq_ok_iff hsections hstatements).2
    ⟨scope', L.named, hscope', ?_, h.numbered.named, h.sound.named, ?_⟩
  · rw [h.sections_tree]
    unfold Scope.Lays Layout.named
    rw [List.forall₂_map_left_iff, List.forall₂_map_right_iff, List.forall₂_same]
    refine fun part hpart => ⟨rfl, ?_⟩
    unfold Scope.DenotesAll
    rw [List.forall₂_map_left_iff, List.forall₂_map_right_iff, List.forall₂_same]
    intro inst hinst
    have hmem : inst ∈ L.instructions := Layout.mem_instructions hpart hinst
    have hreads := h.reads hprint (h.mem_insts.2 hmem)
    constructor
    · have hdenotes : scope'.Denotes (f.body inst) inst :=
        Function.denotes_body hreads.written (fun o ho => hoperand (hreads.operands o ho))
          fun id hid => hblock (h.sound.known inst hmem id hid)
      simpa [Scope.Denotes, Function.statement] using hdenotes
    · exact (hprint.instructions inst (h.mem_insts.2 hmem)).named_name
  · rw [Layout.assemble_named, Function.linked_named, h.function_eq]
    rfl

end Resolved

end Source

namespace Module

variable {name text : String} {m : Module}

/-- A parsed program comes back from its text, with names for all results. Numbers are 32 bits
    wide, so no function may have more blocks or instructions than there are numbers. -/
theorem parse_text (h : parse name text = .ok m)
    (hfew : ∀ f ∈ m.functions.values,
      f.blocks.size < UInt32.size ∧ f.insts.size ≤ UInt32.size)
    (hprint : ∀ f ∈ m.functions.values, f.Reprintable) :
    parse name m.text = .ok m.named := by
  unfold parse at h
  cases hparse : parse? text with
  | none =>
    rw [hparse] at h
    cases h
  | some definitions =>
    rw [hparse] at h
    obtain ⟨hname, fs, hfs, hentries⟩ := addDefinitions_eq_ok_iff.1 h
    have hvalues : m.functions.values = fs := by
      rw [OrderedMap.values, hentries]
      simp [Module.fresh, OrderedMap.empty, Function.comp_def]
    rw [hvalues] at hfew hprint
    have hback : ∀ f ∈ fs, f.tree.Fits Body.Printable ∧ f.tree.text = f.text ∧
        f.tree.resolve = .ok f.named := by
      intro f hf
      obtain ⟨d, hd, hresolve⟩ := exists_of_forall₂ hfs hf
      obtain ⟨scope, L, hresolved⟩ :=
        Definition.exists_resolved (parse?_fits hparse d hd) hresolve (hfew f hf).1 (hfew f hf).2
      exact ⟨hresolved.fits_tree (hprint f hf), hresolved.text_tree (hprint f hf),
        hresolved.resolve_tree (hprint f hf)⟩
    have htext : m.text = "\n".intercalate ((fs.map Function.tree).map Definition.text) := by
      rw [Module.text, hvalues, List.map_map]
      exact congrArg _ (List.map_congr_left fun f hf => (hback f hf).2.1.symm)
    have hread : parse? m.text = some (fs.map Function.tree) := by
      rw [htext]
      refine parse?_text ?_
      rw [List.forall_mem_map]
      exact fun f hf => (hback f hf).1
    unfold parse
    rw [hread]
    refine addDefinitions_eq_ok_iff.2 ⟨hname, fs.map Function.named, ?_, ?_⟩
    · rw [List.forall₂_map_left_iff, List.forall₂_map_right_iff, List.forall₂_same]
      exact fun f hf => (hback f hf).2.2
    · show m.functions.entries.map _ = _
      rw [hentries]
      simp [Module.fresh, OrderedMap.empty, Function.named]

/-- A loop in which an allocation and a call have no names. -/
def countdownText : String :=
  "define @down(%n) \x7b
entry:
  alloca
  br label %loop
loop:
  %i = phi [ %n, %entry ], [ %j, %loop ]
  %j = sub %i, 1
  call @tick(%j)
  br %j, label %loop, label %done
done:
  ret
\x7d"

/-- What `countdownText` says. -/
def countdown : Module where
  name := "countdown"
  functions := .ofList [("down",
    { name := "down"
      params := ["n"]
      blocks := .ofList [
        (.ofNat 0, ⟨.ofNat 0, "entry", [.ofSlot 0, .ofSlot 1], [], [.ofNat 1]⟩),
        (.ofNat 1, ⟨.ofNat 1, "loop", [.ofSlot 2, .ofSlot 3, .ofSlot 4, .ofSlot 5],
          [.ofNat 0, .ofNat 1], [.ofNat 1, .ofNat 2]⟩),
        (.ofNat 2, ⟨.ofNat 2, "done", [.ofSlot 6], [.ofNat 1], []⟩)]
      insts := #[
        ⟨.ofSlot 0, none, .alloca, [], [], [], .ofNat 0⟩,
        ⟨.ofSlot 1, none, .br, [], [], [.ofNat 1], .ofNat 0⟩,
        ⟨.ofSlot 2, some "i", .phi, [.arg 0, .inst (.ofSlot 3)], [.ofNat 0, .ofNat 1], [],
          .ofNat 1⟩,
        ⟨.ofSlot 3, some "j", .sub, [.inst (.ofSlot 2), .const 1], [], [], .ofNat 1⟩,
        ⟨.ofSlot 4, none, .call, [.global "tick", .inst (.ofSlot 3)], [], [], .ofNat 1⟩,
        ⟨.ofSlot 5, none, .br, [.inst (.ofSlot 3)], [], [.ofNat 1, .ofNat 2], .ofNat 1⟩,
        ⟨.ofSlot 6, none, .ret, [], [], [], .ofNat 2⟩] })]

theorem parse_text_countdown :
    parse "countdown" countdownText = .ok countdown ∧
      (∀ f ∈ countdown.functions.values,
        f.blocks.size < UInt32.size ∧ f.insts.size ≤ UInt32.size) ∧
      (∀ f ∈ countdown.functions.values, f.Reprintable) ∧
      parse "countdown" countdown.text = .ok countdown.named ∧ countdown.named ≠ countdown := by
  have hparse : parse "countdown" countdownText = .ok countdown := by decide +kernel
  have hfew : ∀ f ∈ countdown.functions.values,
      f.blocks.size < UInt32.size ∧ f.insts.size ≤ UInt32.size := by decide +kernel
  have hprint : ∀ f ∈ countdown.functions.values, f.Reprintable := by decide +kernel
  exact ⟨hparse, hfew, hprint, parse_text hparse hfew hprint, by decide +kernel⟩

end Module

end FlowFacts
