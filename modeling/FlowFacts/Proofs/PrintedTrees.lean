import FlowFacts.Proofs.Acceptance
import FlowFacts.Proofs.PrintParse

/-!
# Printed trees

The tree that a function prints may be refused when it is read, and if it is accepted it need not
denote the function. What it denotes has the same tree, though: reading and printing a printed tree
changes nothing.

Main results:

* `Source.Resolved.wellFormed_tree_iff`: which printed trees are accepted.
* `Source.Resolved.tree_eq`: a tree in printed form is what its function prints.
* `Source.Resolved.text_of_resolve`: what a printed tree denotes has the same text.
-/

namespace FlowFacts

open Source

/-! ## The parts of a printed instruction -/

instance : DecidablePred Instruction.IsBare := fun inst =>
  inferInstanceAs
    (Decidable ((inst.opcode = .phi ∨ inst.opcode = .br) ∧ inst.incoming = [] ∧ inst.targets = []))

/-- The operands that are printed. A keyword alone stands without them. -/
def Instruction.shownOperands (inst : Instruction) : List Operand :=
  if inst.IsBare then [] else inst.operands

theorem Instruction.mem_operands_of_shown {inst : Instruction} {o : Operand}
    (h : o ∈ inst.shownOperands) : o ∈ inst.operands := by
  unfold shownOperands at h
  split_ifs at h
  · cases h
  · exact h

theorem Instruction.IsWritten.not_isBare {inst : Instruction} (h : inst.IsWritten) :
    ¬ inst.IsBare := by
  obtain ⟨id, name, opcode, operands, incoming, targets, block⟩ := inst
  unfold IsWritten at h
  rintro ⟨hopcode, hincoming, htargets⟩
  cases h with
  | phi hpairs => exact hpairs (List.map_eq_nil_iff.1 hincoming)
  | jump target | branch condition thenBlock elseBlock => cases htargets
  | switch value default cases | call callee args => rcases hopcode with hop | hop <;> cases hop
  | generic hgeneric operands =>
    dsimp only at hopcode
    rcases hopcode with rfl | rfl <;> cases hgeneric

namespace Function

variable {f : Function} {inst : Instruction}

/-- The parts of a printed instruction are the texts of its parts. -/
theorem parts_body (f : Function) (h : inst.IsLegible) :
    (f.body inst).opcode? = some inst.opcode ∧
      (f.body inst).terms = inst.shownOperands.map f.term ∧
      (f.body inst).sources = inst.incoming.map f.labelName ∧
      (f.body inst).targets = inst.targets.map f.labelName := by
  rcases h with hwritten | hbare
  · rw [Instruction.shownOperands, if_neg hwritten.not_isBare]
    obtain ⟨id, name, opcode, operands, incoming, targets, block⟩ := inst
    unfold Instruction.IsWritten at hwritten
    cases hwritten with
    | phi hpairs =>
      rw [body_phi f id name block hpairs]
      simp [Body.opcode?, Body.terms, Body.sources, Body.targets, Function.comp_def]
    | jump target | branch condition thenBlock elseBlock => exact ⟨rfl, rfl, rfl, rfl⟩
    | switch value default cases =>
      rw [body_switch]
      simp [Body.opcode?, Body.terms, Body.sources, Body.targets, Function.comp_def, term]
    | call callee args => exact ⟨rfl, rfl, rfl, rfl⟩
    | generic hgeneric operands =>
      rw [body_of_isGeneric hgeneric]
      exact ⟨Opcode.ofName?_name _, rfl, rfl, rfl⟩
  · rw [Instruction.shownOperands, if_pos hbare, body_of_isBare f hbare, hbare.2.1, hbare.2.2]
    exact ⟨Opcode.ofName?_name _, rfl, rfl, rfl⟩

/-- The names that a function prints: those of its parameters and those of its results. -/
def shownNames (f : Function) : List String :=
  f.params ++ f.insts.toList.filterMap Instruction.printedName

/-- The operand prints as a name that stands for something: an instruction that is used prints
    its result, or another result has its name. -/
def Resolves (f : Function) : Operand → Prop
  | .inst id => ∀ inst ∈ f.inst? id, inst.resultName ∈ f.shownNames
  | .arg _ | .const _ | .global _ | .null | .undefined => True

theorem resolves_iff {o : Operand} (h : f.Known o) :
    f.Resolves o ↔ ∀ name, f.term o = .value name → name ∈ f.shownNames := by
  cases o with
  | inst id =>
    obtain ⟨inst, hinst⟩ := Option.isSome_iff_exists.1 h
    simp [Resolves, term, hinst]
  | arg position =>
    have hmem : f.params[position.toNat] ∈ f.shownNames :=
      List.mem_append_left _ (List.getElem_mem h)
    simpa [Resolves, term, List.getElem?_eq_getElem h] using hmem
  | const value | global name | null | undefined => simp [Resolves, term]

theorem labelName_mem {id : BlockId}
    (hid : (f.block? id).isSome = true) : f.labelName id ∈ f.tree.sections.map Section.label := by
  obtain ⟨block, hblock⟩ := Option.isSome_iff_exists.1 hid
  rw [labelName, hblock]
  refine List.mem_map.2 ⟨f.sectionOf block, List.mem_map.2 ⟨block, ?_, rfl⟩, rfl⟩
  exact List.mem_map.2 ⟨_, OrderedMap.get?_eq_some_iff.1 hblock, rfl⟩

theorem term_of_name {id : InstId} {name : String} (h : f.inst? id = some inst)
    (hname : inst.name = some name) : f.term (.inst id) = .value name := by
  simp [term, h, Instruction.resultName, hname]

end Function

namespace Source

variable {d : Definition} {scope : Scope} {L : Layout} {f : Function} {inst : Instruction}

/-! ## Trees in printed form -/

/-- What is read by its own alternative of the grammar has a text of its own. -/
theorem Scope.Denotes.isLegible_of_formed {body : Body} (h : scope.Denotes body inst)
    (hformed : body.Formed) : inst.IsLegible := by
  obtain ⟨id, name, opcode, operands, incoming, targets, block⟩ := inst
  unfold Denotes at h
  cases h with
  | @phi pairs qs h =>
    refine .inl (.phi fun hnil => hformed ?_)
    rw [hnil, List.forall₂_nil_right_iff] at h
    exact h
  | condBr hc ht he => exact .inl (.branch _ _ _)
  | br h => exact .inl (.jump _)
  | switch hv hd h => exact .inl (.switch _ _ _)
  | call callee h => exact .inl (.call callee _)
  | generic opcode h =>
    rcases hformed with ⟨op, hop, hname⟩ | hbare
    · obtain rfl : opcode = op := Opcode.name_injective hname
      exact .inl (.generic hop _)
    · rcases hbare with hbare | hbare
      · obtain ⟨hname, rfl⟩ := Body.generic.inj hbare
        exact .inr ⟨.inl (Opcode.name_injective hname), rfl, rfl⟩
      · obtain ⟨hname, rfl⟩ := Body.generic.inj hbare
        exact .inr ⟨.inr (Opcode.name_injective hname), rfl, rfl⟩

/-- An instruction prints as what it was read from, if its operands and labels do. -/
theorem Scope.Denotes.body_eq {body : Body} (h : scope.Denotes body inst) (hformed : body.Formed)
    (hterm : ∀ t ∈ body.terms, ∀ o, scope.operand t = .ok o → f.term o = t)
    (hlabel : ∀ l id, scope.block l = .ok id → f.labelName id = l) : f.body inst = body := by
  have hterms : ∀ {ts : List Term} {os : List Operand}, (∀ t ∈ ts, t ∈ body.terms) →
      List.Forall₂ (fun t o => scope.operand t = .ok o) ts os → ts = os.map f.term :=
    fun hsub hos => eq_map_of_forall₂ hos fun t ht o ho => (hterm t (hsub t ht) o ho).symm
  obtain ⟨id, name, opcode, operands, incoming, targets, block⟩ := inst
  unfold Denotes at h
  cases h with
  | @phi pairs qs h =>
    have hqs : qs ≠ [] := by
      rintro rfl
      exact hformed (List.forall₂_nil_right_iff.1 h)
    have hpairs : pairs = qs.map fun q => (f.term q.1, f.labelName q.2) := by
      refine eq_map_of_forall₂ h fun p hp q hpq => ?_
      rw [hterm p.1 (List.mem_map_of_mem hp) _ hpq.1, hlabel _ _ hpq.2]
    rw [Function.body_phi f id name block hqs, hpairs]
  | condBr hc ht he =>
    show Body.condBr _ _ _ = _
    rw [hterm _ (List.mem_singleton_self _) _ hc, hlabel _ _ ht, hlabel _ _ he]
  | br h =>
    show Body.br _ = _
    rw [hlabel _ _ h]
  | @switch _ _ cases _ _ qs hv hd h =>
    have hcases : cases = qs.map fun q => (toString q.1.toInt, f.labelName q.2) := by
      refine eq_map_of_forall₂ h fun c hc q hcq => ?_
      have hliteral := hterm (.integer c.1) (List.mem_cons_of_mem _ (List.mem_map_of_mem hc))
        (.const q.1) (operand_integer_eq_ok_iff.2 ⟨q.1, hcq.1, rfl⟩)
      rw [Term.integer.inj hliteral, hlabel _ _ hcq.2]
    rw [Function.body_switch, hterm _ List.mem_cons_self _ hv, hlabel _ _ hd, hcases]
  | call callee h =>
    show Body.call _ _ = _
    rw [← hterms (fun t ht => List.mem_cons_of_mem _ ht) h]
  | generic opcode h =>
    rcases hformed with ⟨op, hop, hname⟩ | hbare
    · obtain rfl : opcode = op := Opcode.name_injective hname
      exact (Function.body_of_isGeneric hop).trans
        (congrArg (Body.generic _) (hterms (fun t ht => ht) h).symm)
    · rcases hbare with hbare | hbare
      · rw [hbare]
        obtain rfl : opcode = .phi := Opcode.name_injective (Body.generic.inj hbare).1
        exact f.body_of_isBare ⟨.inl rfl, rfl, rfl⟩
      · rw [hbare]
        obtain rfl : opcode = .br := Opcode.name_injective (Body.generic.inj hbare).1
        exact f.body_of_isBare ⟨.inr rfl, rfl, rfl⟩

namespace Resolved

/-- A label stands for the block that has it. -/
theorem labelName_of_block (h : Resolved d scope L f) {label : String} {id : BlockId}
    (hid : scope.block label = .ok id) : f.labelName id = label := by
  rw [Scope.block_eq_ok_iff, (Scope.ofDefinition_eq_ok_iff.1 h.scope_eq).2.2,
    mem_labelEntries] at hid
  obtain ⟨i, s, hs, rfl, rfl⟩ := hid
  obtain ⟨part, hpart, hlabel, -⟩ := exists_getElem?_of_forall₂ h.lays hs
  rw [h.function_eq, Nat.zero_add, Layout.labelName_linked h.numbered hpart, hlabel]

/-- A tree in printed form is what its function prints: it follows the grammar, results have
    names, and operands are written as they are printed. -/
theorem tree_eq (h : Resolved d scope L f)
    (hformed : ∀ st ∈ d.statements, st.body.Formed)
    (hresult : ∀ st ∈ d.statements, ∀ opcode, st.body.opcode? = some opcode →
      st.result.isSome = opcode.hasResult)
    (hterm : ∀ st ∈ d.statements, ∀ t ∈ st.body.terms, ∀ o, scope.operand t = .ok o →
      f.term o = t) : f.tree = d := by
  have hstatement : ∀ st ∈ d.statements, ∀ inst, scope.Denotes st.body inst ∧
      inst.name = st.result → st = f.statement inst := by
    rintro ⟨result, body⟩ hst inst ⟨hdenotes, rfl⟩
    have hsome := hresult _ hst _ (Scope.means_iff.1 hdenotes).1
    have hprinted : inst.printedName = inst.name := by
      unfold Instruction.printedName Instruction.resultName
      rw [← hsome]
      cases inst.name <;> rfl
    have hbody : f.body inst = body := hdenotes.body_eq (hformed _ hst) (hterm _ hst)
      fun _ _ => h.labelName_of_block
    rw [Function.statement, hprinted, hbody]
  have hsections : d.sections = L.map fun part => ⟨part.1, part.2.map f.statement⟩ := by
    refine eq_map_of_forall₂ h.lays ?_
    rintro ⟨label, statements⟩ hs part ⟨rfl, hpart⟩
    refine congrArg (Section.mk _) (eq_map_of_forall₂ hpart fun st hst => hstatement st ?_)
    exact List.mem_flatMap.2 ⟨_, hs, hst⟩
  have hparts : f.tree = ⟨d.name, d.params, d.sections⟩ := by
    rw [hsections, ← h.sections_tree, ← h.name_eq, ← h.params_eq]
    rfl
  exact hparts

/-! ## Which printed trees are accepted -/

theorem names_tree (h : Resolved d scope L f) : f.tree.names = f.shownNames := by
  rw [Definition.names, h.statements_tree, List.filterMap_map, Function.shownNames, h.insts_eq]
  rfl

theorem mem_statements_tree (h : Resolved d scope L f) {st : Statement} :
    st ∈ f.tree.statements ↔ ∃ inst ∈ f.insts, f.statement inst = st := by
  rw [h.statements_tree, List.mem_map]
  simp only [h.mem_insts]

theorem known_of_shown (h : Resolved d scope L f) (hinst : inst ∈ f.insts) {o : Operand}
    (ho : o ∈ inst.shownOperands) : f.Known o :=
  h.known_of_mem hinst (Instruction.mem_operands_of_shown ho)

theorem formed_tree (h : Resolved d scope L f) (hlegible : ∀ inst ∈ f.insts, inst.IsLegible) :
    ∀ st ∈ f.tree.statements, st.body.Formed := by
  intro st hst
  obtain ⟨inst, hinst, rfl⟩ := h.mem_statements_tree.1 hst
  exact (Function.printable_body h.wellNamed (h.prints hinst (hlegible inst hinst))).formed

/-- A printed tree is accepted exactly if the printed names are different and every name that is
    used is among them. -/
theorem wellFormed_tree_iff (h : Resolved d scope L f)
    (hlegible : ∀ inst ∈ f.insts, inst.IsLegible) :
    f.tree.WellFormed ↔ f.shownNames.Nodup ∧
      ∀ inst ∈ f.insts, ∀ o ∈ inst.shownOperands, f.Resolves o := by
  constructor
  · intro hwell
    refine ⟨h.names_tree ▸ hwell.names, fun inst hinst o ho => ?_⟩
    rw [Function.resolves_iff (h.known_of_shown hinst ho), ← h.names_tree]
    intro name hname
    refine hwell.declared _ (h.mem_statements_tree.2 ⟨inst, hinst, rfl⟩) name ?_
    show .value name ∈ (f.body inst).terms
    rw [(f.parts_body (hlegible inst hinst)).2.1]
    exact List.mem_map.2 ⟨o, ho, hname⟩
  · rintro ⟨hnames, hoperands⟩
    have hlabels := (Definition.exists_scope_iff.1 ⟨scope, h.scope_eq⟩).1
    have hparts : ∀ st ∈ f.tree.statements, ∃ inst ∈ f.insts, st = f.statement inst ∧
        (f.body inst).opcode? = some inst.opcode ∧
        (f.body inst).terms = inst.shownOperands.map f.term ∧
        (f.body inst).sources = inst.incoming.map f.labelName ∧
        (f.body inst).targets = inst.targets.map f.labelName := by
      intro st hst
      obtain ⟨inst, hinst, rfl⟩ := h.mem_statements_tree.1 hst
      exact ⟨inst, hinst, rfl, f.parts_body (hlegible inst hinst)⟩
    refine ⟨?_, h.labels_tree ▸ hlabels, h.names_tree ▸ hnames, ?_, ?_, ?_, ?_, ?_⟩
    · rw [h.sections_tree, ne_eq, List.map_eq_nil_iff]
      exact h.sound.nonempty
    · intro st hst name hname
      obtain ⟨inst, hinst, rfl, -, hterms, -⟩ := hparts st hst
      change .value name ∈ (f.body inst).terms at hname
      rw [hterms] at hname
      obtain ⟨o, ho, hname⟩ := List.mem_map.1 hname
      rw [h.names_tree]
      exact (Function.resolves_iff (h.known_of_shown hinst ho)).1 (hoperands inst hinst o ho) _ hname
    · intro st hst label hlabel
      obtain ⟨inst, hinst, rfl, -, -, hsources, htargets⟩ := hparts st hst
      change label ∈ (f.body inst).sources ++ (f.body inst).targets at hlabel
      rw [hsources, htargets, ← List.map_append] at hlabel
      obtain ⟨id, hid, rfl⟩ := List.mem_map.1 hlabel
      refine Function.labelName_mem ((h.prints hinst (hlegible inst hinst)).blocks id ?_)
      exact List.mem_append.2 (List.mem_append.1 hid).symm
    · intro st hst
      obtain ⟨inst, -, rfl, hopcode, -⟩ := hparts st hst
      exact Definition.isSome_opcode?_iff.1 (Option.isSome_iff_exists.2 ⟨_, hopcode⟩)
    · intro st hst literal hliteral
      obtain ⟨inst, -, rfl, -, hterms, -⟩ := hparts st hst
      change .integer literal ∈ (f.body inst).terms at hliteral
      rw [hterms] at hliteral
      obtain ⟨o, -, ho⟩ := List.mem_map.1 hliteral
      obtain ⟨value, rfl⟩ := Function.exists_const_of_term ho
      cases ho
      rw [Scope.literalValue_toString]
      exact ⟨value.minValue_le_toInt, value.toInt_le⟩
    · intro s hs
      rw [h.sections_tree] at hs
      obtain ⟨part, hpart, rfl⟩ := List.mem_map.1 hs
      have hsame : List.Forall₂ (fun st inst => st = f.statement inst ∧ inst ∈ f.insts)
          (part.2.map f.statement) part.2 := by
        rw [List.forall₂_map_left_iff, List.forall₂_same]
        exact fun inst hinst => ⟨rfl, h.mem_insts.2 (Layout.mem_instructions hpart hinst)⟩
      rw [blockOrder_iff_of_forall₂ hsame, Definition.blockOrder_instructions_iff]
      · exact ⟨h.sound.order part hpart, h.sound.terminated part hpart⟩
      · rintro st inst ⟨rfl, hinst⟩
        have hopcode := (f.parts_body (hlegible inst hinst)).1
        simp [Statement.isMerge, Statement.isTerminator, Function.statement, hopcode,
          Instruction.isMerge, Instruction.isTerminator]

/-! ## What a printed tree denotes -/

section

variable {scope' : Scope} {L' : Layout} {f' : Function}

/-- A printed operand prints again as it stands, whatever it stands for now. -/
theorem term_of_operand (h : Resolved d scope L f) (h' : Resolved f.tree scope' L' f')
    (hinst : inst ∈ f.insts) {o o' : Operand} (ho : o ∈ inst.operands)
    (ho' : scope'.operand (f.term o) = .ok o') : f'.term o' = f.term o := by
  have hvalues := (Scope.ofDefinition_eq_ok_iff.1 h'.scope_eq).2.1
  obtain ⟨st, hst, hdenotes, -⟩ := h.exists_statement (h.mem_insts.1 hinst)
  obtain ⟨t, ht, hto⟩ := hdenotes.exists_term hst.body ho
  have hknown := h.known ht hto
  cases o with
  | inst id =>
    obtain ⟨used, name, hused, hname⟩ := h.exists_name hto
    rw [Function.term_of_name hused hname] at ho' ⊢
    have hmem := Scope.value_eq_ok_iff.1 ho'
    rw [hvalues] at hmem
    rcases List.mem_append.1 hmem with hparam | hresult
    · -- The name is that of an instruction, so it is not the name of a parameter.
      obtain ⟨i, hi, -⟩ := mem_paramEntries.1 hparam
      have hused' : used ∈ L.instructions := h.mem_insts.1 (Array.mem_of_getElem? hused)
      exact absurd rfl ((List.nodup_append.1 h.nodup_name).2.2 name (List.mem_of_getElem? hi) name
        (List.mem_filterMap.2 ⟨used, hused', hname⟩))
    · obtain ⟨k, st, -, -, rfl⟩ := mem_resultEntries.1 hresult
      obtain ⟨inst', hinst', hname'⟩ := h'.exists_inst ho'
      exact Function.term_of_name hinst' hname'
  | arg position =>
    have hget := List.getElem?_eq_getElem hknown
    have hterm : f.term (.arg position) = .value f.params[position.toNat] := by
      rw [Function.term, hget]
    have hvalue : scope'.value f.params[position.toNat] = .ok (.arg position) := by
      rw [Scope.value_eq_ok_iff, hvalues]
      refine List.mem_append_left _ (mem_paramEntries.2 ⟨position.toNat, hget, ?_⟩)
      rw [Nat.zero_add, UInt32.ofNat_toNat]
    rw [hterm] at ho'
    cases hvalue.symm.trans ho'
    show f'.term (.arg position) = _
    rw [Function.term, Function.term, h'.params_eq]
    rfl
  | const value =>
    obtain ⟨n, hn, rfl⟩ := Scope.operand_integer_eq_ok_iff.1 ho'
    rw [scope'.integer_toString] at hn
    cases hn
    rfl
  | global name | null | undefined =>
    cases ho'
    rfl

theorem tree_of_resolve (h : Resolved d scope L f) (hlegible : ∀ inst ∈ f.insts, inst.IsLegible)
    (h' : Resolved f.tree scope' L' f') : f'.tree = f.tree := by
  refine h'.tree_eq (h.formed_tree hlegible) ?_ ?_
  · intro st hst opcode hopcode
    obtain ⟨inst, hinst, rfl⟩ := h.mem_statements_tree.1 hst
    cases (f.parts_body (hlegible inst hinst)).1.symm.trans hopcode
    show inst.printedName.isSome = _
    unfold Instruction.printedName
    split_ifs with hresult
    · exact hresult.symm
    · exact (Bool.not_eq_true _ ▸ hresult).symm
  · intro st hst t ht o ho
    obtain ⟨inst, hinst, rfl⟩ := h.mem_statements_tree.1 hst
    change t ∈ (f.body inst).terms at ht
    rw [(f.parts_body (hlegible inst hinst)).2.1] at ht
    obtain ⟨o', ho', rfl⟩ := List.mem_map.1 ht
    exact h.term_of_operand h' hinst (Instruction.mem_operands_of_shown ho') ho

end

/-- What a printed tree denotes has the text of the tree. -/
theorem text_of_resolve (h : Resolved d scope L f) (hlegible : f.Legible) {f' : Function}
    (hf' : f.tree.resolve = .ok f') : f'.text = f.text := by
  obtain ⟨hsections, hstatements⟩ := h.few_tree
  obtain ⟨scope', L', hscope, hlays, hnumbered, hsound, hfunction⟩ :=
    (Definition.resolve_eq_ok_iff hsections hstatements).1 hf'
  have h' : Resolved f.tree scope' L' f' :=
    ⟨(h.printable_tree hlegible).imp fun _ hb => hb.named, hscope, hlays, hnumbered, hsound,
      hfunction⟩
  have hlegible' : ∀ inst ∈ f'.insts, inst.IsLegible := by
    intro inst' hinst'
    obtain ⟨st, hst, hdenotes, -⟩ := exists_of_forall₂ h'.denotesAll (h'.mem_insts.1 hinst')
    exact hdenotes.isLegible_of_formed (h.formed_tree hlegible.lines st hst)
  calc f'.text
    _ = f'.tree.text := (f'.text_tree hlegible').symm
    _ = f.tree.text := by rw [h.tree_of_resolve hlegible.lines h']
    _ = f.text := f.text_tree hlegible.lines

end Resolved

end Source

end FlowFacts
