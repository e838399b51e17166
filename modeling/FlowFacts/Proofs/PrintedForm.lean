import FlowFacts.Program.Printer
import FlowFacts.Proofs.Resolution
import FlowFacts.Proofs.TreeText

/-!
# The tree that a function prints

Printing a function is writing down a tree: operands become the names they print under, and every
result has a name. The trees of instructions that a text can have say the same as the instructions.

Main results:

* `Function.text_tree`: the text of a function is the text of its tree.
* `Function.denotes_body`: the tree of an instruction denotes it, in a scope in which the printed
  names stand for what they were printed for.
-/

namespace FlowFacts

open Source

/-! ## Names of results -/

/-- The name that the result of an instruction has in print. -/
def Instruction.resultName (inst : Instruction) : String :=
  inst.name.getD ("." ++ toString inst.id.slot)

theorem Instruction.valueName_eq (inst : Instruction) :
    inst.valueName = "%" ++ inst.resultName := by
  unfold valueName resultName
  cases inst.name with
  | some name => rfl
  | none =>
    show "%." ++ _ = "%" ++ ("." ++ _)
    rw [← String.append_assoc]
    rfl

/-- The name of the result in print, if there is a result. -/
def Instruction.printedName (inst : Instruction) : Option String :=
  if inst.opcode.hasResult then some inst.resultName else none

theorem Instruction.printedName_eq_some {inst : Instruction} {name : String} :
    inst.printedName = some name ↔ inst.opcode.hasResult = true ∧ inst.resultName = name := by
  unfold printedName
  split_ifs with hresult
  · simp [hresult]
  · simp [hresult]

/-- The instruction with the printed name of its result, if it has a result. -/
def Instruction.named (inst : Instruction) : Instruction :=
  if inst.opcode.hasResult then { inst with name := some inst.resultName } else inst

section

variable (inst : Instruction)

@[simp] theorem Instruction.named_id : inst.named.id = inst.id := by unfold named; split <;> rfl

@[simp] theorem Instruction.named_opcode : inst.named.opcode = inst.opcode := by
  unfold named; split <;> rfl

@[simp] theorem Instruction.named_operands : inst.named.operands = inst.operands := by
  unfold named; split <;> rfl

@[simp] theorem Instruction.named_incoming : inst.named.incoming = inst.incoming := by
  unfold named; split <;> rfl

@[simp] theorem Instruction.named_targets : inst.named.targets = inst.targets := by
  unfold named; split <;> rfl

@[simp] theorem Instruction.named_block : inst.named.block = inst.block := by
  unfold named; split <;> rfl

@[simp] theorem Instruction.named_isTerminator :
    inst.named.isTerminator = inst.isTerminator := by
  rw [isTerminator, isTerminator, named_opcode]

@[simp] theorem Instruction.named_isMerge : inst.named.isMerge = inst.isMerge := by
  rw [isMerge, isMerge, named_opcode]

end

/-- The function with names for all results. -/
def Function.named (f : Function) : Function := { f with insts := f.insts.map Instruction.named }

/-- The module with names for all results. -/
def Module.named (m : Module) : Module :=
  { m with functions := m.functions.mapWithKey fun _ f => f.named }

/-! ## Written instructions -/

/-- The contents of the instructions that have a text of their own: opcode, operands, blocks that
    operands arrive from, and targets. -/
inductive Written : Opcode → List Operand → List BlockId → List BlockId → Prop
  | phi {pairs : List (Operand × BlockId)} (h : pairs ≠ []) :
    Written .phi (pairs.map Prod.fst) (pairs.map Prod.snd) []
  | jump (target : BlockId) : Written .br [] [] [target]
  | branch (condition : Operand) (thenBlock elseBlock : BlockId) :
    Written .br [condition] [] [thenBlock, elseBlock]
  | switch (value : Operand) (default : BlockId) (cases : List (Int64 × BlockId)) :
    Written .switch (value :: cases.map fun c => .const c.1) [] (default :: cases.map Prod.snd)
  | call (callee : String) (args : List Operand) : Written .call (.global callee :: args) [] []
  | generic {opcode : Opcode} (h : opcode.isGeneric = true) (operands : List Operand) :
    Written opcode operands [] []

/-- The instruction has contents that can be written. -/
def Instruction.IsWritten (inst : Instruction) : Prop :=
  Written inst.opcode inst.operands inst.incoming inst.targets

/-- The instruction prints as its keyword alone, whatever its operands are. -/
def Instruction.IsBare (inst : Instruction) : Prop :=
  (inst.opcode = .phi ∨ inst.opcode = .br) ∧ inst.incoming = [] ∧ inst.targets = []

/-- The text of the instruction is that of a tree. -/
def Instruction.IsLegible (inst : Instruction) : Prop := inst.IsWritten ∨ inst.IsBare

/-! ## Trees -/

namespace Function

variable {f : Function} {inst : Instruction} {o : Operand}

/-- An operand as a tree. -/
def term (f : Function) : Operand → Term
  | .inst id =>
    match f.inst? id with
    | some inst => .value inst.resultName
    | none => .value ("." ++ toString id.slot)
  | .arg position =>
    match f.params[position.toNat]? with
    | some name => .value name
    | none => .value ("arg" ++ toString position.toNat)
  | .const value => .integer (toString value.toInt)
  | .global name => .global name
  | .null => .null
  | .undefined => .undefined

/-- An instruction as a tree, without its result. Where nothing but a keyword is printed, nothing
    else is read. -/
def body (f : Function) (inst : Instruction) : Body :=
  match inst.opcode with
  | .phi =>
    match inst.incomingPairs with
    | [] => .generic Opcode.phi.name []
    | pairs => .phi (pairs.map fun p => (f.term p.1, f.labelName p.2))
  | .br =>
    match inst.operands, inst.targets with
    | condition :: _, [thenBlock, elseBlock] =>
      .condBr (f.term condition) (f.labelName thenBlock) (f.labelName elseBlock)
    | _, target :: _ => .br (f.labelName target)
    | _, [] => .generic Opcode.br.name []
  | .switch =>
    match inst.operands, inst.targets with
    | value :: literals, default :: targets =>
      .switch (f.term value) (f.labelName default)
        ((literals.zip targets).map fun c => ((f.term c.1).text, f.labelName c.2))
    | operands, _ => .generic Opcode.switch.name (operands.map f.term)
  | .call =>
    match inst.operands with
    | .global callee :: args => .call callee (args.map f.term)
    | operands => .generic Opcode.call.name (operands.map f.term)
  | opcode => .generic opcode.name (inst.operands.map f.term)

/-- An instruction as a tree. -/
def statement (f : Function) (inst : Instruction) : Statement :=
  ⟨inst.printedName, f.body inst⟩

/-- A block as a tree. -/
def sectionOf (f : Function) (block : Block) : Section :=
  ⟨block.label, (f.instructionsOf block).map f.statement⟩

/-- A function as a tree. -/
def tree (f : Function) : Definition := ⟨f.name, f.params, f.blocks.values.map f.sectionOf⟩

theorem exists_const_of_term {literal : String} (h : f.term o = .integer literal) :
    ∃ value, o = .const value := by
  cases o with
  | const value => exact ⟨value, rfl⟩
  | inst id | arg position =>
    rw [term] at h
    split at h <;> cases h
  | global name | null | undefined => cases h

theorem eq_global_of_term {name : String} (h : f.term o = .global name) : o = .global name := by
  cases o with
  | global name' =>
    cases h
    rfl
  | inst id | arg position =>
    rw [term] at h
    split at h <;> cases h
  | const value | null | undefined => cases h

theorem body_phi (f : Function) (id : InstId) (name : Option String) (block : BlockId)
    {pairs : List (Operand × BlockId)} (h : pairs ≠ []) :
    f.body ⟨id, name, .phi, pairs.map Prod.fst, pairs.map Prod.snd, [], block⟩ =
      .phi (pairs.map fun p => (f.term p.1, f.labelName p.2)) := by
  have hpairs : (pairs.map Prod.fst).zip (pairs.map Prod.snd) = pairs := by
    rw [List.zip_map']
    exact List.map_id pairs
  obtain ⟨p, ps, rfl⟩ := List.exists_cons_of_ne_nil h
  unfold body Instruction.incomingPairs
  dsimp only
  rw [hpairs]

theorem body_switch (f : Function) (id : InstId) (name : Option String) (block : BlockId)
    (value : Operand) (default : BlockId) (cases : List (Int64 × BlockId)) :
    f.body ⟨id, name, .switch, value :: cases.map fun c => .const c.1, [],
        default :: cases.map Prod.snd, block⟩ =
      .switch (f.term value) (f.labelName default)
        (cases.map fun c => (toString c.1.toInt, f.labelName c.2)) := by
  show Body.switch _ _ (((cases.map _).zip (cases.map Prod.snd)).map _) = _
  rw [List.zip_map', List.map_map]
  rfl

theorem body_of_isGeneric (h : inst.opcode.isGeneric = true) :
    f.body inst = .generic inst.opcode.name (inst.operands.map f.term) := by
  unfold body
  cases hop : inst.opcode <;> first | rfl | (rw [hop] at h; cases h)

/-! ## Texts -/

theorem text_term (f : Function) (o : Operand) : (f.term o).text = f.operandText o := by
  cases o with
  | inst id =>
    rw [term, operandText]
    cases f.inst? id with
    | some inst => exact (Instruction.valueName_eq inst).symm
    | none =>
      show "%" ++ ("." ++ _) = "%." ++ _
      rw [← String.append_assoc]
      rfl
  | arg position =>
    rw [term, operandText]
    cases f.params[position.toNat]? with
    | some name => rfl
    | none =>
      show "%" ++ ("arg" ++ _) = "%arg" ++ _
      rw [← String.append_assoc]
      rfl
  | _ => rfl

theorem map_text_term (f : Function) (operands : List Operand) :
    (operands.map f.term).map Term.text = operands.map f.operandText := by
  rw [List.map_map]
  exact List.map_congr_left fun o _ => f.text_term o

theorem bodyText_of_isGeneric (h : inst.opcode.isGeneric = true) :
    f.bodyText inst = (Body.generic inst.opcode.name (inst.operands.map f.term)).text := by
  obtain ⟨id, name, opcode, operands, incoming, targets, block⟩ := inst
  cases operands with
  | nil => cases opcode <;> first | rfl | cases h
  | cons o operands =>
    show _ = _ ++ " " ++ ", ".intercalate (((o :: operands).map f.term).map Term.text)
    rw [map_text_term]
    cases opcode <;> first | rfl | cases h

theorem text_body (f : Function) (h : inst.IsWritten) : (f.body inst).text = f.bodyText inst := by
  obtain ⟨id, name, opcode, operands, incoming, targets, block⟩ := inst
  unfold Instruction.IsWritten at h
  cases h with
  | @phi pairs h =>
    rw [body_phi f id name block h]
    show "phi " ++ ", ".intercalate ((pairs.map _).map Source.incomingText) =
      "phi " ++ ", ".intercalate
        (((pairs.map Prod.fst).zip (pairs.map Prod.snd)).map f.incomingText)
    rw [List.zip_map', List.map_map, List.map_map]
    congr 2
    refine List.map_congr_left fun p _ => ?_
    simp [Source.incomingText, incomingText, text_term]
  | jump target => rfl
  | branch condition thenBlock elseBlock =>
    show "br " ++ (f.term condition).text ++ _ ++ _ ++ _ ++ _ = _
    rw [text_term]
    rfl
  | switch value default cases =>
    rw [body_switch]
    show "switch " ++ (f.term value).text ++ ", " ++ f.labelText default ++
        String.join ((cases.map _).map caseText) =
      "switch " ++ f.operandText value ++ ", " ++ f.labelText default ++
        String.join ((((cases.map fun c => Operand.const c.1).map f.operandText).zip
          ((cases.map Prod.snd).map f.labelText)).map _)
    rw [text_term, List.map_map, List.map_map, List.map_map, List.zip_map', List.map_map]
    rfl
  | call callee args =>
    show "call @" ++ callee ++ "(" ++ ", ".intercalate ((args.map f.term).map Term.text) ++ ")" =
      "call " ++ ("@" ++ callee) ++ "(" ++ ", ".intercalate (args.map f.operandText) ++ ")"
    rw [map_text_term, ← String.append_assoc]
    rfl
  | generic h operands =>
    rw [body_of_isGeneric h, bodyText_of_isGeneric h]

theorem not_bare_body (f : Function) (h : inst.IsWritten) : ¬ (f.body inst).Bare := by
  obtain ⟨id, name, opcode, operands, incoming, targets, block⟩ := inst
  unfold Instruction.IsWritten at h
  cases h with
  | phi h =>
    rw [body_phi f id name block h]
    rintro (hbare | hbare) <;> cases hbare
  | jump target | branch condition thenBlock elseBlock | switch value default cases
  | call callee args => rintro (hbare | hbare) <;> cases hbare
  | generic h operands =>
    rw [body_of_isGeneric h]
    rintro (hbare | hbare)
    · rw [Opcode.name_injective (Body.generic.inj hbare).1] at h
      cases h
    · rw [Opcode.name_injective (Body.generic.inj hbare).1] at h
      cases h

theorem body_of_isBare (f : Function) (h : inst.IsBare) :
    f.body inst = .generic inst.opcode.name [] := by
  obtain ⟨id, name, opcode, operands, incoming, targets, block⟩ := inst
  obtain ⟨rfl | rfl, hincoming, htargets⟩ := h
  · obtain rfl : incoming = [] := hincoming
    unfold body Instruction.incomingPairs
    rw [List.zip_nil_right]
  · obtain rfl : targets = [] := htargets
    cases operands <;> rfl

theorem bare_body (f : Function) (h : inst.IsBare) : (f.body inst).Bare := by
  rw [body_of_isBare f h]
  rcases h.1 with hopcode | hopcode
  · exact .inl (by rw [hopcode])
  · exact .inr (by rw [hopcode])

theorem text_body_trail (f : Function) (h : inst.IsLegible) :
    (f.body inst).text ++ (f.body inst).trail = f.bodyText inst := by
  unfold Body.trail
  rcases h with h | h
  · rw [if_neg (not_bare_body f h), text_body f h, String.append_empty]
  · rw [if_pos (bare_body f h), body_of_isBare f h]
    obtain ⟨id, name, opcode, operands, incoming, targets, block⟩ := inst
    obtain ⟨rfl | rfl, hincoming, htargets⟩ := h
    · obtain rfl : incoming = [] := hincoming
      unfold bodyText Instruction.incomingPairs
      rw [List.zip_nil_right]
      rfl
    · obtain rfl : targets = [] := htargets
      rfl

theorem instText_eq (f : Function) (inst : Instruction) :
    f.instText inst = resultText inst.printedName ++ f.bodyText inst := by
  unfold instText Instruction.printedName
  split_ifs
  · rw [Instruction.valueName_eq]
    rfl
  · exact String.empty_append.symm

/-- The line of an instruction is the line of its tree. -/
theorem line_statement (f : Function) (h : inst.IsLegible) :
    (f.statement inst).line = f.instText inst := by
  rw [instText_eq, ← text_body_trail f h]
  exact String.append_assoc

theorem mem_insts_of_instructionsOf {block : Block} (h : inst ∈ f.instructionsOf block) :
    inst ∈ f.insts := by
  obtain ⟨id, -, hid⟩ := List.mem_filterMap.1 h
  exact Array.mem_of_getElem? hid

/-- The text of a function is the text of its tree. -/
theorem text_tree (f : Function) (h : ∀ inst ∈ f.insts, inst.IsLegible) :
    f.tree.text = f.text := by
  have hsection : ∀ block, (f.sectionOf block).text = f.blockText block := by
    intro block
    unfold Section.text sectionOf blockText
    dsimp only
    rw [List.map_map]
    congr 2
    refine List.map_congr_left fun inst hinst => ?_
    rw [← line_statement f (h inst (mem_insts_of_instructionsOf hinst))]
    rfl
  have hsections : (f.blocks.values.map f.sectionOf).map Section.text =
      f.blocks.values.map f.blockText := by
    rw [List.map_map]
    exact List.map_congr_left fun block _ => hsection block
  unfold Definition.text tree text
  dsimp only
  rw [hsections]

end Function

/-! ## Numbers in names and literals -/

theorem isDigit_of_mem_toString {n : Nat} {c : Char} (h : c ∈ (toString n).toList) :
    c.isDigit = true := by
  rw [Nat.toString_eq_repr, Nat.toList_repr] at h
  exact Nat.isDigit_of_mem_toDigits (by decide) (by decide) h

theorem toList_toString_ne_nil (n : Nat) : (toString n).toList ≠ [] := by
  rw [Nat.toString_eq_repr, Nat.toList_repr]
  exact Nat.toDigits_ne_nil

theorem ofDigitChars_toString (n : Nat) : Nat.ofDigitChars 10 (toString n).toList 0 = n := by
  rw [Nat.toString_eq_repr, Nat.toList_repr]
  exact Nat.ofDigitChars_ten_toDigits

theorem toString_nat_injective {m n : Nat} (h : toString m = toString n) : m = n := by
  rw [← ofDigitChars_toString m, h, ofDigitChars_toString]

namespace Source

theorem isName_dot_toString (n : Nat) : IsName ("." ++ toString n) := by
  have hlist : ("." ++ toString n).toList = '.' :: (toString n).toList := by simp
  refine ⟨by simp, ?_⟩
  rw [hlist, List.forall_mem_cons]
  refine ⟨by decide, fun c hc => ?_⟩
  simp [isIdentChar, Char.isAlphanum, isDigit_of_mem_toString hc]

theorem toList_toString_negSucc (n : Nat) :
    (toString (Int.negSucc n)).toList = '-' :: (toString (n + 1)).toList := by
  show ("-" ++ toString (n + 1)).toList = _
  simp

theorem isLiteral_toString (n : Int) : IsLiteral (toString n) := by
  cases n with
  | ofNat n =>
    exact ⟨(toString n).toList, toList_toString_ne_nil n, fun _ => isDigit_of_mem_toString,
      .inl rfl⟩
  | negSucc n =>
    exact ⟨(toString (n + 1)).toList, toList_toString_ne_nil _, fun _ => isDigit_of_mem_toString,
      .inr (toList_toString_negSucc n)⟩

theorem Scope.literalValue_toString (n : Int) : literalValue (toString n) = n := by
  unfold literalValue
  cases n with
  | ofNat n =>
    -- Digits only, so the text is not taken for a negative number.
    have hnot : ∀ digits, (toString n).toList ≠ '-' :: digits := by
      intro digits h
      have hminus : '-'.isDigit = true := isDigit_of_mem_toString (h ▸ List.mem_cons_self)
      exact absurd hminus (by decide)
    rw [show (toString (Int.ofNat n)).toList = (toString n).toList from rfl]
    split
    · exact absurd ‹_› (hnot _)
    · rw [ofDigitChars_toString]
      rfl
  | negSucc n =>
    rw [toList_toString_negSucc]
    show -(Nat.ofDigitChars 10 (toString (n + 1)).toList 0 : Int) = _
    rw [ofDigitChars_toString]
    rfl

theorem Scope.integer_toString (scope : Scope) (value : Int64) :
    scope.integer (toString value.toInt) = .ok value := by
  unfold integer
  rw [literalValue_toString]
  simp only [value.minValue_le_toInt, value.toInt_le, and_self, if_true, value.ofInt_toInt]

end Source

/-! ## Trees that can be read back -/

/-- The names of the function follow the grammar. -/
structure Function.WellNamed (f : Function) : Prop where
  name : IsName f.name
  params : ∀ p ∈ f.params, IsName p
  results : ∀ inst ∈ f.insts, ∀ name ∈ inst.name, IsName name
  labels : ∀ block ∈ f.blocks.values, IsName block.label

/-- The operand refers to something that has a name. -/
def Function.Known (f : Function) : Operand → Prop
  | .inst id => (f.inst? id).isSome = true
  | .arg position => position.toNat < f.params.length
  | .global name => IsName name
  | .const _ | .null | .undefined => True

/-- The operand has a text that leads back to it: if it is an instruction, that has a result. -/
structure Function.Readable (f : Function) (o : Operand) : Prop where
  known : f.Known o
  result : ∀ {id : InstId} {inst : Instruction}, o = .inst id → f.inst? id = some inst →
    inst.opcode.hasResult = true

/-- The instruction has a text that can be read. -/
structure Function.Prints (f : Function) (inst : Instruction) : Prop where
  legible : inst.IsLegible
  operands : ∀ o ∈ inst.operands, f.Known o
  blocks : ∀ id ∈ inst.targets ++ inst.incoming, (f.block? id).isSome = true

/-- The instruction has a text that leads back to it. -/
structure Function.Reads (f : Function) (inst : Instruction) : Prop where
  written : inst.IsWritten
  operands : ∀ o ∈ inst.operands, f.Readable o
  blocks : ∀ id ∈ inst.targets ++ inst.incoming, (f.block? id).isSome = true

theorem Instruction.isName_resultName {inst : Instruction} (h : ∀ name ∈ inst.name, IsName name) :
    IsName inst.resultName := by
  unfold resultName
  cases hname : inst.name with
  | some name => exact h name hname
  | none => exact isName_dot_toString _

namespace Function

variable {f : Function} {inst : Instruction} {o : Operand}

theorem printable_term (hnames : f.WellNamed) (h : f.Known o) : (f.term o).Printable := by
  cases o with
  | inst id =>
    obtain ⟨inst, hinst⟩ := Option.isSome_iff_exists.1 h
    have hmem : inst ∈ f.insts := Array.mem_of_getElem? hinst
    rw [term, hinst]
    exact Instruction.isName_resultName (hnames.results inst hmem)
  | arg position =>
    rw [term, List.getElem?_eq_getElem h]
    exact hnames.params _ (List.getElem_mem h)
  | const value => exact isLiteral_toString _
  | global name => exact h
  | null => trivial
  | undefined => trivial

theorem isName_labelName (hnames : f.WellNamed) {id : BlockId} (h : (f.block? id).isSome = true) :
    IsName (f.labelName id) := by
  obtain ⟨block, hblock⟩ := Option.isSome_iff_exists.1 h
  have hmem : (id, block) ∈ f.blocks.entries := OrderedMap.get?_eq_some_iff.1 hblock
  rw [labelName, hblock]
  exact hnames.labels block (List.mem_map.2 ⟨_, hmem, rfl⟩)

theorem printable_body (hnames : f.WellNamed) (h : f.Prints inst) : (f.body inst).Printable := by
  have hterm : ∀ o ∈ inst.operands, (f.term o).Printable := fun o ho =>
    printable_term hnames (h.operands o ho)
  have hlabel : ∀ id ∈ inst.targets ++ inst.incoming, IsName (f.labelName id) := fun id hid =>
    isName_labelName hnames (h.blocks id hid)
  rcases h.legible with hwritten | hbare
  swap
  · have hbody := f.bare_body hbare
    rw [body_of_isBare f hbare] at hbody ⊢
    exact ⟨by simp [Body.WellNamed], .inr hbody⟩
  obtain ⟨id, name, opcode, operands, incoming, targets, block⟩ := inst
  unfold Instruction.IsWritten at hwritten
  cases hwritten with
  | @phi pairs hpairs =>
    rw [body_phi f id name block hpairs]
    refine ⟨?_, by simpa [Body.Formed] using hpairs⟩
    simp only [Body.WellNamed, List.forall_mem_map]
    intro p hp
    exact ⟨hterm _ (List.mem_map_of_mem hp), hlabel _ (List.mem_map_of_mem hp)⟩
  | jump target => exact ⟨hlabel _ (by simp), trivial⟩
  | branch condition thenBlock elseBlock =>
    exact ⟨⟨hterm _ (by simp), hlabel _ (by simp), hlabel _ (by simp)⟩, trivial⟩
  | switch value default cases =>
    rw [body_switch]
    refine ⟨⟨hterm _ (by simp), hlabel _ (by simp), ?_⟩, trivial⟩
    rw [List.forall_mem_map]
    intro c hc
    exact ⟨isLiteral_toString _, hlabel _ (List.mem_append_left _
      (List.mem_cons_of_mem _ (List.mem_map_of_mem hc)))⟩
  | call callee args =>
    refine ⟨⟨h.operands (.global callee) (by simp), ?_⟩, trivial⟩
    rw [List.forall_mem_map]
    exact fun o ho => hterm o (List.mem_cons_of_mem _ ho)
  | generic hgeneric operands =>
    rw [body_of_isGeneric hgeneric]
    refine ⟨?_, .inl ⟨opcode, hgeneric, rfl⟩⟩
    simpa only [Body.WellNamed, List.forall_mem_map] using hterm

/-- A printed operand leads back to where it came from. -/
theorem operand_term {scope : Scope}
    (hparams : ∀ {i : Nat} {name : String}, f.params[i]? = some name →
      scope.value name = .ok (.arg (UInt32.ofNat i)))
    (hresults : ∀ {id : InstId} {inst : Instruction}, f.inst? id = some inst →
      inst.opcode.hasResult = true → scope.value inst.resultName = .ok (.inst id))
    (h : f.Readable o) : scope.operand (f.term o) = .ok o := by
  cases o with
  | inst id =>
    obtain ⟨inst, hinst⟩ := Option.isSome_iff_exists.1 h.known
    rw [term, hinst]
    exact hresults hinst (h.result rfl hinst)
  | arg position =>
    have hname := List.getElem?_eq_getElem h.known
    rw [term, hname]
    show scope.value _ = _
    rw [hparams hname, UInt32.ofNat_toNat]
  | const value =>
    show (scope.integer (toString value.toInt) >>= _) = _
    rw [scope.integer_toString]
    rfl
  | global name => rfl
  | null => rfl
  | undefined => rfl

/-- The tree of an instruction denotes it where printed names stand for what was printed. -/
theorem denotes_body {scope : Scope} (h : inst.IsWritten)
    (hoperand : ∀ o ∈ inst.operands, scope.operand (f.term o) = .ok o)
    (hblock : ∀ id ∈ inst.targets ++ inst.incoming, scope.block (f.labelName id) = .ok id) :
    scope.Denotes (f.body inst) inst := by
  have hoperands : ∀ {operands : List Operand}, (∀ o ∈ operands, o ∈ inst.operands) →
      List.Forall₂ (fun t o => scope.operand t = .ok o) (operands.map f.term) operands := by
    intro operands hsub
    rw [List.forall₂_map_left_iff, List.forall₂_same]
    exact fun o ho => hoperand o (hsub o ho)
  obtain ⟨id, name, opcode, operands, incoming, targets, block⟩ := inst
  unfold Instruction.IsWritten at h
  unfold Scope.Denotes
  cases h with
  | @phi pairs h =>
    rw [body_phi f id name block h]
    refine .phi ?_
    rw [List.forall₂_map_left_iff, List.forall₂_same]
    intro p hp
    exact ⟨hoperand _ (List.mem_map_of_mem hp), hblock _ (List.mem_map_of_mem hp)⟩
  | jump target => exact .br (hblock _ (by simp))
  | branch condition thenBlock elseBlock =>
    exact .condBr (hoperand _ (by simp)) (hblock _ (by simp)) (hblock _ (by simp))
  | switch value default cases =>
    rw [body_switch]
    refine .switch (hoperand _ (by simp)) (hblock _ (by simp)) ?_
    rw [List.forall₂_map_left_iff, List.forall₂_same]
    intro c hc
    exact ⟨scope.integer_toString _, hblock _ (List.mem_append_left _
      (List.mem_cons_of_mem _ (List.mem_map_of_mem hc)))⟩
  | call callee args => exact .call callee (hoperands fun o ho => List.mem_cons_of_mem _ ho)
  | generic hgeneric operands =>
    rw [body_of_isGeneric hgeneric]
    exact .generic opcode (hoperands fun o ho => ho)

end Function

end FlowFacts
