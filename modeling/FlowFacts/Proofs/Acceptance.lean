import FlowFacts.Proofs.Arrangement
import FlowFacts.Proofs.ResolvedModules

/-!
# Which programs are accepted

A text that follows the grammar denotes a module exactly if its names are in order, its opcodes and
integers exist, and its blocks have their merges in front and one terminator at the end. These are
conditions on the tree alone; where a name is defined, before or after its uses, does not matter.

Main results:

* `Source.Scope.means_iff`: what an instruction says, part by part.
* `Source.Scope.exists_lays`: if every statement says something, there is a layout.
* `Source.Definition.exists_resolve_iff`: which definitions denote a function.
* `Module.exists_parse_iff`: which texts denote a module.
-/

namespace FlowFacts

/-- The order of a block depends only on which items are merges and terminators. -/
theorem blockOrder_map {α β : Type} {isMerge isTerminator : β → Bool} {f : α → β} {xs : List α} :
    BlockOrder isMerge isTerminator (xs.map f) ↔
      BlockOrder (fun a => isMerge (f a)) (fun a => isTerminator (f a)) xs := by
  constructor
  · rintro ⟨merges, middle, last, heq, hmerges, hmiddle, hlast⟩
    obtain ⟨front, back, rfl, hfront, hback⟩ := List.map_eq_append_iff.1 heq
    obtain ⟨ms, rest, rfl, rfl, rfl⟩ := List.map_eq_append_iff.1 hfront
    obtain ⟨a, rfl, rfl⟩ := List.map_eq_singleton_iff.1 hback
    exact ⟨ms, rest, a, rfl, by simpa using hmerges, by simpa using hmiddle, hlast⟩
  · rintro ⟨merges, middle, last, rfl, hmerges, hmiddle, hlast⟩
    exact ⟨merges.map f, middle.map f, f last, by simp, by simpa using hmerges,
      by simpa using hmiddle, hlast⟩

theorem blockOrder_iff_of_forall₂ {α β : Type} {isMerge isTerminator : α → Bool}
    {isMerge' isTerminator' : β → Bool} {R : α → β → Prop} {xs : List α} {ys : List β}
    (h : List.Forall₂ R xs ys)
    (hR : ∀ {a b}, R a b → isMerge a = isMerge' b ∧ isTerminator a = isTerminator' b) :
    BlockOrder isMerge isTerminator xs ↔ BlockOrder isMerge' isTerminator' ys := by
  have hflags : xs.map (fun a => (isMerge a, isTerminator a)) =
      ys.map fun b => (isMerge' b, isTerminator' b) :=
    map_eq_of_forall₂ h fun hab => Prod.ext (hR hab).1 (hR hab).2
  have hleft := @blockOrder_map _ _ Prod.fst Prod.snd (fun a => (isMerge a, isTerminator a)) xs
  have hright := @blockOrder_map _ _ Prod.fst Prod.snd (fun b => (isMerge' b, isTerminator' b)) ys
  exact hleft.symm.trans (by rw [hflags]; exact hright)

namespace Source

/-! ## The parts of a statement -/

namespace Body

/-- The opcode, if it exists. -/
def opcode? : Body → Option Opcode
  | .phi _ => some .phi
  | .condBr .. | .br _ => some .br
  | .switch .. => some .switch
  | .call .. => some .call
  | .generic opcode _ => Opcode.ofName? opcode

/-- The operands. The cases of a switch stand behind the value, the callee of a call in front of
    the arguments. -/
def terms : Body → List Term
  | .phi incoming => incoming.map Prod.fst
  | .condBr condition _ _ => [condition]
  | .br _ => []
  | .switch value _ cases => value :: cases.map fun c => .integer c.1
  | .call callee args => .global callee :: args
  | .generic _ operands => operands

/-- The labels that the operands of a merge arrive from. -/
def sources : Body → List String
  | .phi incoming => incoming.map Prod.snd
  | _ => []

/-- The labels that a jump may lead to. The default of a switch stands in front of the cases. -/
def targets : Body → List String
  | .condBr _ thenLabel elseLabel => [thenLabel, elseLabel]
  | .br label => [label]
  | .switch _ default cases => default :: cases.map Prod.snd
  | _ => []

end Body

/-- Whether the statement is a merge. -/
def Statement.isMerge (st : Statement) : Bool := st.body.opcode?.any Opcode.isMerge

/-- Whether the statement is a terminator. -/
def Statement.isTerminator (st : Statement) : Bool := st.body.opcode?.any Opcode.isTerminator

namespace Scope

open Layout

variable {scope : Scope} {body : Body} {opcode : Opcode} {operands : List Operand}
  {incoming targets : List BlockId}

theorem operand_integer_eq_ok_iff {literal : String} {o : Operand} :
    scope.operand (.integer literal) = .ok o ↔
      ∃ n, scope.integer literal = .ok n ∧ o = .const n := by
  rw [operand, bind_eq_ok_iff]
  refine exists_congr fun n => and_congr_right fun _ => ?_
  constructor
  · intro h
    cases h
    rfl
  · rintro rfl
    rfl

/-- The literals of a switch stand for constants. -/
theorem exists_constants {literals : List String}
    (h : List.Forall₂ (fun l o => scope.operand (.integer l) = .ok o) literals operands) :
    ∃ ns : List Int64, List.Forall₂ (fun l n => scope.integer l = .ok n) literals ns ∧
      operands = ns.map .const := by
  induction h with
  | nil => exact ⟨[], .nil, rfl⟩
  | cons ho _ ih =>
    obtain ⟨n, hn, rfl⟩ := operand_integer_eq_ok_iff.1 ho
    obtain ⟨ns, hns, rfl⟩ := ih
    exact ⟨n :: ns, .cons hn hns, rfl⟩

/-- An instruction says what its parts stand for. -/
theorem means_iff : scope.Means body opcode operands incoming targets ↔
    body.opcode? = some opcode ∧
      List.Forall₂ (fun t o => scope.operand t = .ok o) body.terms operands ∧
      List.Forall₂ (fun l id => scope.block l = .ok id) body.sources incoming ∧
      List.Forall₂ (fun l id => scope.block l = .ok id) body.targets targets := by
  constructor
  · intro h
    cases h with
    | phi h =>
      refine ⟨rfl, ?_, ?_, .nil⟩
      · exact List.forall₂_map_left_iff.2 (List.forall₂_map_right_iff.2 (h.imp fun _ _ h => h.1))
      · exact List.forall₂_map_left_iff.2 (List.forall₂_map_right_iff.2 (h.imp fun _ _ h => h.2))
    | condBr hc ht he => exact ⟨rfl, .cons hc .nil, .nil, .cons ht (.cons he .nil)⟩
    | br h => exact ⟨rfl, .nil, .nil, .cons h .nil⟩
    | switch hv hd h =>
      refine ⟨rfl, .cons hv ?_, .nil, .cons hd ?_⟩
      · refine List.forall₂_map_left_iff.2 (List.forall₂_map_right_iff.2 (h.imp fun _ q h => ?_))
        exact operand_integer_eq_ok_iff.2 ⟨q.1, h.1, rfl⟩
      · exact List.forall₂_map_left_iff.2 (List.forall₂_map_right_iff.2 (h.imp fun _ _ h => h.2))
    | call callee h => exact ⟨rfl, .cons rfl h, .nil, .nil⟩
    | generic opcode h => exact ⟨Opcode.ofName?_name _, h, .nil, .nil⟩
  · rintro ⟨hopcode, hoperands, hincoming, htargets⟩
    cases body with
    | phi pairs =>
      cases hopcode
      cases htargets
      obtain ⟨qs, hqs, rfl, rfl⟩ := exists_pairs_of_forall₂ hoperands hincoming
      exact .phi hqs
    | condBr condition thenLabel elseLabel =>
      cases hopcode
      cases hincoming
      obtain ⟨c, cs, hc, hnil, rfl⟩ := List.forall₂_cons_left_iff.1 hoperands
      cases hnil
      obtain ⟨t, ts, ht, hrest, rfl⟩ := List.forall₂_cons_left_iff.1 htargets
      obtain ⟨e, es, he, hnil, rfl⟩ := List.forall₂_cons_left_iff.1 hrest
      cases hnil
      exact .condBr hc ht he
    | br label =>
      cases hopcode
      cases hoperands
      cases hincoming
      obtain ⟨t, ts, ht, hnil, rfl⟩ := List.forall₂_cons_left_iff.1 htargets
      cases hnil
      exact .br ht
    | switch value default cases =>
      cases hopcode
      cases hincoming
      obtain ⟨v, os, hv, hos, rfl⟩ := List.forall₂_cons_left_iff.1 hoperands
      obtain ⟨d, ds, hd, hds, rfl⟩ := List.forall₂_cons_left_iff.1 htargets
      have hliterals : List.Forall₂ (fun l o => scope.operand (.integer l) = .ok o)
          (cases.map Prod.fst) os :=
        List.forall₂_map_left_iff.2 (List.forall₂_map_left_iff.1 hos)
      obtain ⟨ns, hns, rfl⟩ := exists_constants hliterals
      obtain ⟨qs, hqs, rfl, rfl⟩ := exists_pairs_of_forall₂ hns hds
      rw [List.map_map]
      exact .switch hv hd hqs
    | call callee args =>
      cases hopcode
      cases hincoming
      cases htargets
      obtain ⟨o, os, ho, hos, rfl⟩ := List.forall₂_cons_left_iff.1 hoperands
      cases ho
      exact .call callee hos
    | generic word ts =>
      obtain rfl := Opcode.name_of_ofName? hopcode
      cases hincoming
      cases htargets
      exact .generic opcode hoperands

/-- An instruction says something if each of its parts stands for something. -/
theorem exists_means_iff :
    (∃ opcode operands incoming targets, scope.Means body opcode operands incoming targets) ↔
      body.opcode?.isSome = true ∧ (∀ t ∈ body.terms, ∃ o, scope.operand t = .ok o) ∧
        ∀ l ∈ body.sources ++ body.targets, ∃ id, scope.block l = .ok id := by
  simp only [means_iff, List.forall_mem_append]
  constructor
  · rintro ⟨opcode, operands, incoming, targets, hopcode, hoperands, hincoming, htargets⟩
    refine ⟨Option.isSome_iff_exists.2 ⟨opcode, hopcode⟩, fun t ht => ?_, fun l hl => ?_,
      fun l hl => ?_⟩
    · obtain ⟨o, -, ho⟩ := exists_of_forall₂ hoperands.flip ht
      exact ⟨o, ho⟩
    · obtain ⟨id, -, hid⟩ := exists_of_forall₂ hincoming.flip hl
      exact ⟨id, hid⟩
    · obtain ⟨id, -, hid⟩ := exists_of_forall₂ htargets.flip hl
      exact ⟨id, hid⟩
  · rintro ⟨hopcode, hterms, hsources, htargets⟩
    obtain ⟨opcode, hopcode⟩ := Option.isSome_iff_exists.1 hopcode
    obtain ⟨operands, hoperands⟩ := exists_forall₂ hterms
    obtain ⟨incoming, hincoming⟩ := exists_forall₂ hsources
    obtain ⟨targets, htargets⟩ := exists_forall₂ htargets
    exact ⟨opcode, operands, incoming, targets, hopcode, hoperands, hincoming, htargets⟩

/-! ## Layouts for statements that say something -/

theorem exists_denotesAll {statements : List Statement} {done rest : Layout} {label : String}
    {insts : List Instruction} (h : Numbered (done ++ (label, insts) :: rest))
    (hrest : ∀ part ∈ rest, part.2 = [])
    (hfew : (instructions done ++ insts).length + statements.length ≤ UInt32.size)
    (hmeans : ∀ st ∈ statements, ∃ opcode operands incoming targets,
      scope.Means st.body opcode operands incoming targets) :
    ∃ new, scope.DenotesAll statements new ∧ Numbered (done ++ (label, insts ++ new) :: rest) := by
  induction statements generalizing insts with
  | nil => exact ⟨[], .nil, by simpa using h⟩
  | cons st statements ih =>
    rw [List.length_cons] at hfew
    rw [List.forall_mem_cons] at hmeans
    obtain ⟨⟨opcode, operands, incoming, targets, hst⟩, hmeans⟩ := hmeans
    -- The next instruction receives the next number.
    let inst : Instruction := ⟨.ofSlot (instructions done ++ insts).length, st.result, opcode,
      operands, incoming, targets, .ofNat done.length⟩
    have hnumbered : Numbered (done ++ (label, insts ++ [inst]) :: rest) :=
      (numbered_append hrest).2 ⟨h, by omega, rfl, rfl⟩
    have hlength : (instructions done ++ (insts ++ [inst])).length + statements.length ≤
        UInt32.size := by
      rw [← List.append_assoc, List.length_append, List.length_singleton]
      omega
    obtain ⟨new, hnew, hnumbered⟩ := ih hnumbered hlength hmeans
    exact ⟨inst :: new, .cons ⟨hst, rfl⟩ hnew, by simpa using hnumbered⟩

theorem exists_lays {sections : List Section} {done : Layout}
    (h : Numbered (done ++ blank sections))
    (hfew : (instructions done).length + (sections.flatMap Section.statements).length ≤
      UInt32.size)
    (hmeans : ∀ st ∈ sections.flatMap Section.statements, ∃ opcode operands incoming targets,
      scope.Means st.body opcode operands incoming targets) :
    ∃ L, scope.Lays sections L ∧ Numbered (done ++ L) := by
  induction sections generalizing done with
  | nil => exact ⟨[], .nil, h⟩
  | cons s sections ih =>
    rw [List.flatMap_cons, List.length_append] at hfew
    rw [List.flatMap_cons, List.forall_mem_append] at hmeans
    have hrest : ∀ part ∈ blank sections, part.2 = [] := by simp [blank]
    obtain ⟨new, hnew, hnumbered⟩ := exists_denotesAll h hrest (by simp; omega) hmeans.1
    have hassoc : ∀ L : Layout, done ++ (s.label, new) :: L = done ++ [(s.label, new)] ++ L := by
      simp
    have hinsts : instructions (done ++ [(s.label, new)]) = instructions done ++ new :=
      instructions_append (by simp)
    have hlength : (instructions (done ++ [(s.label, new)])).length +
        (sections.flatMap Section.statements).length ≤ UInt32.size := by
      rw [hinsts, List.length_append, ← hnew.length_eq]
      omega
    rw [List.nil_append, hassoc] at hnumbered
    obtain ⟨L, hL, hnumbered⟩ := ih hnumbered hlength hmeans.2
    exact ⟨(s.label, new) :: L, .cons ⟨rfl, hnew⟩ hL, by rwa [hassoc]⟩

end Scope

/-! ## Definitions -/

/-- The names of the parameters and results of a function. -/
def Definition.names (d : Definition) : List String :=
  d.params ++ d.statements.filterMap Statement.result

/-- A definition whose names are in order and whose blocks have the right shape. -/
structure Definition.WellFormed (d : Definition) : Prop where
  nonempty : d.sections ≠ []
  labels : (d.sections.map Section.label).Nodup
  names : d.names.Nodup
  /-- Every value that is used is a parameter or a result. -/
  declared : ∀ st ∈ d.statements, ∀ name, .value name ∈ st.body.terms → name ∈ d.names
  /-- Every label that a jump or a merge names is there. -/
  labelled : ∀ st ∈ d.statements, ∀ label ∈ st.body.sources ++ st.body.targets,
    label ∈ d.sections.map Section.label
  opcodes : ∀ st ∈ d.statements, ∀ opcode operands, st.body = .generic opcode operands →
    ∃ op : Opcode, op.name = opcode
  /-- Integers fit into 64 bits, those of switch cases too. -/
  integers : ∀ st ∈ d.statements, ∀ literal, .integer literal ∈ st.body.terms →
    Int64.minValue.toInt ≤ Scope.literalValue literal ∧
      Scope.literalValue literal ≤ Int64.maxValue.toInt
  /-- Merges come first, and the last instruction of a block is its one terminator. -/
  order : ∀ s ∈ d.sections, BlockOrder Statement.isMerge Statement.isTerminator s.statements

namespace Definition

variable {d : Definition} {scope : Scope} {L : Layout}

theorem exists_scope_iff : (∃ scope, Scope.ofDefinition d = .ok scope) ↔
    (d.sections.map Section.label).Nodup ∧ d.names.Nodup := by
  have hvalues : d.valueEntries.map Prod.fst = d.names := by
    rw [valueEntries, List.map_append, keys_paramEntries, keys_resultEntries, names]
  have hlabels : (labelEntries 0 d.sections).map Prod.fst = d.sections.map Section.label :=
    List.ext_getElem? fun i => by simp [labelEntries, Function.comp_def]
  simp only [Scope.ofDefinition_eq_ok_iff]
  constructor
  · rintro ⟨scope, -, hvalueEntries, hlabelEntries⟩
    have hnames := scope.values.nodupKeys
    have hblocks := scope.blocks.nodupKeys
    rw [hvalueEntries, hvalues] at hnames
    rw [hlabelEntries, hlabels] at hblocks
    exact ⟨hblocks, hnames⟩
  · rintro ⟨hblocks, hnames⟩
    rw [← hvalues] at hnames
    rw [← hlabels] at hblocks
    exact ⟨⟨d.name, ⟨_, hnames⟩, ⟨_, hblocks⟩⟩, rfl, rfl, rfl⟩

theorem exists_value_iff (h : Scope.ofDefinition d = .ok scope) {name : String} :
    (∃ o, scope.value name = .ok o) ↔ name ∈ d.names := by
  simp only [Scope.value_eq_ok_iff, (Scope.ofDefinition_eq_ok_iff.1 h).2.1]
  rw [names, ← keys_paramEntries 0 d.params, ← keys_resultEntries 0 d.statements,
    ← List.map_append, List.mem_map]
  constructor
  · rintro ⟨o, ho⟩
    exact ⟨_, ho, rfl⟩
  · rintro ⟨⟨n, o⟩, ho, rfl⟩
    exact ⟨o, ho⟩

theorem exists_block_iff (h : Scope.ofDefinition d = .ok scope) {label : String} :
    (∃ id, scope.block label = .ok id) ↔ label ∈ d.sections.map Section.label := by
  simp only [Scope.block_eq_ok_iff, (Scope.ofDefinition_eq_ok_iff.1 h).2.2, mem_labelEntries]
  rw [List.mem_map]
  constructor
  · rintro ⟨id, i, s, hs, rfl, -⟩
    exact ⟨s, List.mem_of_getElem? hs, rfl⟩
  · rintro ⟨s, hs, rfl⟩
    obtain ⟨i, hi⟩ := List.getElem?_of_mem hs
    exact ⟨_, i, s, hi, rfl, rfl⟩

theorem exists_integer_iff {literal : String} : (∃ n, scope.integer literal = .ok n) ↔
    Int64.minValue.toInt ≤ Scope.literalValue literal ∧
      Scope.literalValue literal ≤ Int64.maxValue.toInt := by
  unfold Scope.integer
  dsimp only
  split_ifs with h
  · exact iff_of_true ⟨_, rfl⟩ h
  · exact iff_of_false (fun ⟨_, hn⟩ => nomatch hn) h

/-- Operands stand for something if names are declared and integers are in range. -/
theorem exists_operands_iff (h : Scope.ofDefinition d = .ok scope) {terms : List Term} :
    (∀ t ∈ terms, ∃ o, scope.operand t = .ok o) ↔
      (∀ name, .value name ∈ terms → name ∈ d.names) ∧
        ∀ literal, .integer literal ∈ terms →
          Int64.minValue.toInt ≤ Scope.literalValue literal ∧
            Scope.literalValue literal ≤ Int64.maxValue.toInt := by
  have hinteger : ∀ literal, (∃ o, scope.operand (.integer literal) = .ok o) ↔
      ∃ n, scope.integer literal = .ok n := by
    intro literal
    simp only [Scope.operand_integer_eq_ok_iff]
    exact ⟨fun ⟨_, n, hn, _⟩ => ⟨n, hn⟩, fun ⟨n, hn⟩ => ⟨_, n, hn, rfl⟩⟩
  constructor
  · intro hall
    exact ⟨fun name hname => (exists_value_iff h).1 (hall _ hname),
      fun literal hliteral => exists_integer_iff.1 ((hinteger literal).1 (hall _ hliteral))⟩
  · rintro ⟨hvalues, hintegers⟩ t ht
    cases t with
    | value name => exact (exists_value_iff h).2 (hvalues name ht)
    | global name => exact ⟨_, rfl⟩
    | integer literal => exact (hinteger literal).2 (exists_integer_iff.2 (hintegers literal ht))
    | null => exact ⟨_, rfl⟩
    | undefined => exact ⟨_, rfl⟩

theorem isSome_opcode?_iff {body : Body} : body.opcode?.isSome = true ↔
    ∀ opcode operands, body = .generic opcode operands → ∃ op : Opcode, op.name = opcode := by
  cases body with
  | generic word ts =>
    rw [Body.opcode?, Option.isSome_iff_exists]
    constructor
    · rintro ⟨op, hop⟩ opcode operands heq
      cases heq
      exact ⟨op, Opcode.name_of_ofName? hop⟩
    · intro h
      obtain ⟨op, rfl⟩ := h word ts rfl
      exact ⟨op, Opcode.ofName?_name op⟩
  | _ => simp [Body.opcode?]

/-- Every statement of a definition says something exactly if its names are known. -/
theorem means_iff_known (h : Scope.ofDefinition d = .ok scope) :
    (∀ st ∈ d.statements, ∃ opcode operands incoming targets,
        scope.Means st.body opcode operands incoming targets) ↔
      (∀ st ∈ d.statements, ∀ name, .value name ∈ st.body.terms → name ∈ d.names) ∧
      (∀ st ∈ d.statements, ∀ label ∈ st.body.sources ++ st.body.targets,
        label ∈ d.sections.map Section.label) ∧
      (∀ st ∈ d.statements, ∀ opcode operands, st.body = .generic opcode operands →
        ∃ op : Opcode, op.name = opcode) ∧
      ∀ st ∈ d.statements, ∀ literal, .integer literal ∈ st.body.terms →
        Int64.minValue.toInt ≤ Scope.literalValue literal ∧
          Scope.literalValue literal ≤ Int64.maxValue.toInt := by
  simp only [Scope.exists_means_iff, isSome_opcode?_iff, exists_operands_iff h, exists_block_iff h]
  constructor
  · intro hall
    exact ⟨fun st hst => (hall st hst).2.1.1, fun st hst => (hall st hst).2.2,
      fun st hst => (hall st hst).1, fun st hst => (hall st hst).2.1.2⟩
  · rintro ⟨hdeclared, hlabelled, hopcodes, hintegers⟩ st hst
    exact ⟨hopcodes st hst, ⟨hdeclared st hst, hintegers st hst⟩, hlabelled st hst⟩

/-- A block has the right shape exactly if the statements of its section have. -/
theorem blockOrder_iff_of_denotesAll {statements : List Statement} {insts : List Instruction}
    (h : scope.DenotesAll statements insts) :
    BlockOrder Statement.isMerge Statement.isTerminator statements ↔
      BlockOrder Instruction.isMerge Instruction.isTerminator insts := by
  refine blockOrder_iff_of_forall₂ h fun {st inst} hst => ?_
  have hopcode := (Scope.means_iff.1 hst.1).1
  simp [Statement.isMerge, Statement.isTerminator, hopcode, Instruction.isMerge,
    Instruction.isTerminator]

theorem blockOrder_instructions_iff {insts : List Instruction} :
    BlockOrder Instruction.isMerge Instruction.isTerminator insts ↔
      insts.IsChain Layout.MayFollow ∧ ∃ last ∈ insts.getLast?, last.isTerminator = true :=
  blockOrder_iff fun inst => inst.opcode.isTerminator_of_isMerge

/-- A layout of the statements of a definition is sound exactly if the sections have the right
    shape: references to labels lead to blocks in any case. -/
theorem sound_iff (h : Scope.ofDefinition d = .ok scope) (hlays : scope.Lays d.sections L)
    (hfew : d.sections.length ≤ UInt32.size) :
    L.Sound ↔ d.sections ≠ [] ∧
      ∀ s ∈ d.sections, BlockOrder Statement.isMerge Statement.isTerminator s.statements := by
  have hlength : d.sections.length = L.length := hlays.length_eq
  have hne : L ≠ [] ↔ d.sections ≠ [] := by
    rw [ne_eq, ne_eq, ← List.length_eq_zero_iff, ← List.length_eq_zero_iff, hlength]
  constructor
  · intro hsound
    refine ⟨hne.1 hsound.nonempty, fun s hs => ?_⟩
    obtain ⟨part, hpart, -, hdenotes⟩ := exists_of_forall₂ hlays.flip hs
    rw [blockOrder_iff_of_denotesAll hdenotes, blockOrder_instructions_iff]
    exact ⟨hsound.order part hpart, hsound.terminated part hpart⟩
  · rintro ⟨hnonempty, horder⟩
    have hparts : ∀ part ∈ L, part.2.IsChain Layout.MayFollow ∧
        ∃ last ∈ part.2.getLast?, last.isTerminator = true := by
      intro part hpart
      obtain ⟨s, hs, -, hdenotes⟩ := exists_of_forall₂ hlays hpart
      rw [← blockOrder_instructions_iff, ← blockOrder_iff_of_denotesAll hdenotes]
      exact horder s hs
    refine ⟨hne.2 hnonempty, fun part hpart => (hparts part hpart).1,
      fun part hpart => (hparts part hpart).2, fun inst hinst id hid => ?_⟩
    obtain ⟨part, hpart, hmem⟩ := List.mem_flatMap.1 hinst
    obtain ⟨s, -, -, hdenotes⟩ := exists_of_forall₂ hlays hpart
    obtain ⟨st, -, hst, -⟩ := exists_of_forall₂ hdenotes hmem
    obtain ⟨-, -, hincoming, htargets⟩ := Scope.means_iff.1 hst
    obtain ⟨label, hlabel⟩ : ∃ label, scope.block label = .ok id := by
      rcases List.mem_append.1 hid with hid | hid
      · obtain ⟨label, -, hlabel⟩ := exists_of_forall₂ htargets hid
        exact ⟨label, hlabel⟩
      · obtain ⟨label, -, hlabel⟩ := exists_of_forall₂ hincoming hid
        exact ⟨label, hlabel⟩
    rw [Scope.block_eq_ok_iff, (Scope.ofDefinition_eq_ok_iff.1 h).2.2, mem_labelEntries] at hlabel
    obtain ⟨i, t, ht, -, rfl⟩ := hlabel
    have hi := (List.getElem?_eq_some_iff.1 ht).1
    rw [Nat.zero_add]
    exact Layout.contains_blocks (by omega) (by omega)

theorem exists_resolve_iff (hsections : d.sections.length ≤ UInt32.size)
    (hstatements : d.statements.length ≤ UInt32.size) :
    (∃ f, d.resolve = .ok f) ↔ d.WellFormed := by
  simp only [resolve_eq_ok_iff hsections hstatements]
  constructor
  · rintro ⟨f, scope, L, hscope, hlays, -, hsound, -⟩
    obtain ⟨hlabels, hnames⟩ := exists_scope_iff.1 ⟨scope, hscope⟩
    obtain ⟨hnonempty, horder⟩ := (sound_iff hscope hlays hsections).1 hsound
    have hmeans : ∀ st ∈ d.statements, ∃ opcode operands incoming targets,
        scope.Means st.body opcode operands incoming targets := by
      intro st hst
      obtain ⟨s, hs, hst⟩ := List.mem_flatMap.1 hst
      obtain ⟨part, -, -, hdenotes⟩ := exists_of_forall₂ hlays.flip hs
      obtain ⟨inst, -, hinst, -⟩ := exists_of_forall₂ hdenotes.flip hst
      exact ⟨_, _, _, _, hinst⟩
    obtain ⟨hdeclared, hlabelled, hopcodes, hintegers⟩ := (means_iff_known hscope).1 hmeans
    exact ⟨hnonempty, hlabels, hnames, hdeclared, hlabelled, hopcodes, hintegers, horder⟩
  · intro h
    obtain ⟨scope, hscope⟩ := exists_scope_iff.2 ⟨h.labels, h.names⟩
    have hmeans :=
      (means_iff_known hscope).2 ⟨h.declared, h.labelled, h.opcodes, h.integers⟩
    have hblank : Layout.Numbered ([] ++ blank d.sections) := numbered_blank hsections
    have hfew : (Layout.instructions []).length + d.statements.length ≤ UInt32.size := by
      rwa [show (Layout.instructions []).length = 0 from rfl, Nat.zero_add]
    obtain ⟨L, hlays, hnumbered⟩ := Scope.exists_lays hblank hfew hmeans
    exact ⟨_, scope, L, hscope, hlays, hnumbered,
      (sound_iff hscope hlays hsections).2 ⟨h.nonempty, h.order⟩, rfl⟩

end Definition

/-! ## Texts -/

/-- Well-formed definitions of functions with different names. -/
structure WellFormed (definitions : List Definition) : Prop where
  names : (definitions.map Definition.name).Nodup
  definitions : ∀ d ∈ definitions, d.WellFormed

/-- Definitions denote the functions of some module exactly if they are well formed. -/
theorem exists_resolve_iff {name : String} {definitions : List Definition}
    (hfew : ∀ d ∈ definitions,
      d.sections.length ≤ UInt32.size ∧ d.statements.length ≤ UInt32.size) :
    (∃ m, resolve name definitions = .ok m) ↔ WellFormed definitions := by
  have hnames : ∀ {fs : List Function},
      List.Forall₂ (fun d f => d.resolve = .ok f) definitions fs →
        definitions.map Definition.name = fs.map Function.name := by
    intro fs hfs
    refine map_eq_of_forall₂ ((List.forall₂_and_left _ _).2 ⟨hfew, hfs⟩) fun {d f} ⟨hd, hf⟩ => ?_
    obtain ⟨_, _, _, _, _, _, rfl⟩ := (Definition.resolve_eq_ok_iff hd.1 hd.2).1 hf
    rfl
  unfold resolve
  simp only [addDefinitions_eq_ok_iff]
  constructor
  · rintro ⟨m, -, fs, hfs, hentries⟩
    refine ⟨?_, fun d hd => ?_⟩
    · have hkeys := m.functions.nodupKeys
      rw [hentries] at hkeys
      simpa [Module.fresh, OrderedMap.empty, Function.comp_def, hnames hfs] using hkeys
    · obtain ⟨f, -, hf⟩ := exists_of_forall₂ hfs.flip hd
      exact (Definition.exists_resolve_iff (hfew d hd).1 (hfew d hd).2).1 ⟨f, hf⟩
  · rintro ⟨hdistinct, hwell⟩
    obtain ⟨fs, hfs⟩ := exists_forall₂ fun d hd =>
      (Definition.exists_resolve_iff (hfew d hd).1 (hfew d hd).2).2 (hwell d hd)
    have hkeys : ((fs.map fun f => (f.name, f)).map Prod.fst).Nodup := by
      rw [hnames hfs] at hdistinct
      simpa [Function.comp_def] using hdistinct
    exact ⟨⟨name, ⟨_, hkeys⟩⟩, rfl, fs, hfs, rfl⟩

end Source

open Source

/-- A text that follows the grammar denotes a module exactly if its definitions are well formed.
    Numbers are 32 bits wide, so no function may have more sections or statements than there are
    numbers. -/
theorem Module.exists_parse_iff {name text : String} {definitions : List Definition}
    (h : parse? text = some definitions)
    (hfew : ∀ d ∈ definitions,
      d.sections.length ≤ UInt32.size ∧ d.statements.length ≤ UInt32.size) :
    (∃ m, parse name text = .ok m) ↔ WellFormed definitions := by
  unfold parse
  rw [h]
  exact exists_resolve_iff hfew

namespace Module

/-- A loop whose merge and whose jump use names that are defined later. -/
def dispatchText : String :=
  "define @f(%n)\x7b
a:br label %b
b:%i=phi[%n,%a],[%j,%b]
%j=sub %i,1
switch %j,label %b[-7,label %c]
c:ret %j\x7d"

/-- What `dispatchText` says. -/
def dispatch : Definition where
  name := "f"
  params := ["n"]
  sections := [
    ⟨"a", [⟨none, .br "b"⟩]⟩,
    ⟨"b", [
      ⟨some "i", .phi [(.value "n", "a"), (.value "j", "b")]⟩,
      ⟨some "j", .generic "sub" [.value "i", .integer "1"]⟩,
      ⟨none, .switch (.value "j") "b" [("-7", "c")]⟩]⟩,
    ⟨"c", [⟨none, .generic "ret" [.value "j"]⟩]⟩]

theorem parse?_dispatchText : parse? dispatchText = some [dispatch] := by decide +kernel

theorem exists_parse_iff_dispatch :
    parse? dispatchText = some [dispatch] ∧ WellFormed [dispatch] := by
  have hparse := parse?_dispatchText
  have hfew : ∀ d ∈ [dispatch],
      d.sections.length ≤ UInt32.size ∧ d.statements.length ≤ UInt32.size := by decide +kernel
  have hok : (parse "dispatch" dispatchText).toBool = true := by
    unfold parse
    rw [hparse]
    decide +kernel
  exact ⟨hparse, (exists_parse_iff hparse hfew).1 (exists_ok_of_toBool hok)⟩

end Module

end FlowFacts
