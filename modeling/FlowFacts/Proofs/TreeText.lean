import FlowFacts.Program.Opcode
import FlowFacts.Proofs.ReaderLaws

/-!
# Trees in text

The text of a tree, laid out the way functions are printed, and the trees for which that text
says the same as the tree. Such a tree has names and literals that follow the grammar, and no
operand list is left empty where a label comes next that could be taken for an operand.

The main definitions are `Source.Definition.text` and `Source.Definition.Fits`.
-/

namespace FlowFacts

/-- Whether the opcode is written without a form of its own: its name and its operands. -/
def Opcode.isGeneric : Opcode → Bool
  | phi | br | switch | call => false
  | _ => true

namespace Source

/-! ## Texts -/

/-- The text of an operand. -/
def Term.text : Term → String
  | .value name => "%" ++ name
  | .global name => "@" ++ name
  | .integer literal => literal
  | .null => "null"
  | .undefined => "undef"

/-- The text of an operand of a merge. -/
def incomingText (pair : Term × String) : String := "[ " ++ pair.1.text ++ ", %" ++ pair.2 ++ " ]"

/-- The text of a reference to a label. -/
def labelText (label : String) : String := "label %" ++ label

/-- The text of a case. -/
def caseText (case : String × String) : String :=
  " [ " ++ case.1 ++ ", " ++ labelText case.2 ++ " ]"

/-- The text of an instruction without its result. -/
def Body.text : Body → String
  | .phi incoming => "phi " ++ ", ".intercalate (incoming.map incomingText)
  | .condBr condition thenLabel elseLabel =>
    "br " ++ condition.text ++ ", " ++ labelText thenLabel ++ ", " ++ labelText elseLabel
  | .br label => "br " ++ labelText label
  | .switch value default cases =>
    "switch " ++ value.text ++ ", " ++ labelText default ++ String.join (cases.map caseText)
  | .call callee args =>
    "call @" ++ callee ++ "(" ++ ", ".intercalate (args.map Term.text) ++ ")"
  | .generic opcode [] => opcode
  | .generic opcode operands => opcode ++ " " ++ ", ".intercalate (operands.map Term.text)

theorem Body.exists_text_generic (opcode : String) (operands : List Term) :
    ∃ rest, (Body.generic opcode operands).text = opcode ++ rest := by
  cases operands with
  | nil => exact ⟨"", by simp [Body.text]⟩
  | cons t operands => exact ⟨_, by rw [Body.text, String.append_assoc]; simp⟩

/-- An instruction with a form of its own of which only the keyword is written. -/
def Body.Bare (b : Body) : Prop := b = .generic Opcode.phi.name [] ∨ b = .generic Opcode.br.name []

instance : DecidablePred Body.Bare := fun b =>
  inferInstanceAs (Decidable (b = .generic Opcode.phi.name [] ∨ b = .generic Opcode.br.name []))

/-- What stands behind an instruction on its line: the blank after a bare keyword. -/
def Body.trail (b : Body) : String := if b.Bare then " " else ""

/-- The text of a result, in front of its instruction. -/
def resultText : Option String → String
  | some name => "%" ++ name ++ " = "
  | none => ""

/-- The text of a statement. -/
def Statement.text (s : Statement) : String := resultText s.result ++ s.body.text

/-- The line of a statement. -/
def Statement.line (s : Statement) : String := s.text ++ s.body.trail

/-- The text of a section. -/
def Section.text (s : Section) : String :=
  s.label ++ ":\n" ++ String.join (s.statements.map fun st => "  " ++ st.line ++ "\n")

/-- The text of a function. -/
def Definition.text (d : Definition) : String :=
  "define @" ++ d.name ++ "(" ++ ", ".intercalate (d.params.map fun p => "%" ++ p) ++ ") \x7b\n" ++
    "\n".intercalate (d.sections.map Section.text) ++ "\x7d\n"

/-! ## Printable trees -/

/-- A name: one or more of the characters that names may have. -/
def IsName (name : String) : Prop :=
  name.toList ≠ [] ∧ ∀ c ∈ name.toList, isIdentChar c = true

instance : DecidablePred IsName := fun name =>
  decidable_of_iff (name.toList ≠ [] ∧ name.toList.all isIdentChar = true) (by simp [IsName])

/-- An integer literal: digits, possibly with a minus sign. -/
def IsLiteral (literal : String) : Prop :=
  ∃ digits : List Char, digits ≠ [] ∧ (∀ c ∈ digits, c.isDigit = true) ∧
    (literal.toList = digits ∨ literal.toList = '-' :: digits)

/-- The names and literals of an operand follow the grammar. -/
def Term.Printable : Term → Prop
  | .value name | .global name => IsName name
  | .integer literal => IsLiteral literal
  | .null | .undefined => True

/-- The names and literals of an instruction follow the grammar. -/
def Body.WellNamed : Body → Prop
  | .phi incoming => ∀ p ∈ incoming, p.1.Printable ∧ IsName p.2
  | .condBr condition thenLabel elseLabel =>
    condition.Printable ∧ IsName thenLabel ∧ IsName elseLabel
  | .br label => IsName label
  | .switch value default cases =>
    value.Printable ∧ IsName default ∧ ∀ c ∈ cases, IsLiteral c.1 ∧ IsName c.2
  | .call callee args => IsName callee ∧ ∀ t ∈ args, t.Printable
  | .generic _ operands => ∀ t ∈ operands, t.Printable

/-- An instruction that is read by its own alternative of the grammar. -/
def Body.Formed : Body → Prop
  | .phi incoming => incoming ≠ []
  | .generic opcode operands =>
    (∃ op : Opcode, op.isGeneric = true ∧ opcode = op.name) ∨ (Body.generic opcode operands).Bare
  | _ => True

structure Body.Printable (b : Body) : Prop where
  named : b.WellNamed
  formed : b.Formed

/-- An instruction whose text could go on: an operand behind it would be taken for one of its
    own. -/
def Body.Open (b : Body) : Prop := ∃ opcode, b = .generic opcode []

/-- A label that could be taken for an operand: it starts like a number, or it is one of the words
    that are operands. -/
def StartsTerm (label : String) : Prop :=
  (∃ c ∈ label.toList.head?, c.isDigit = true) ∨ label = "null" ∨ label = "undef"

instance : DecidablePred StartsTerm := fun label =>
  decidable_of_iff (label.toList.head?.any Char.isDigit = true ∨ label = "null" ∨ label = "undef")
    (by unfold StartsTerm; cases label.toList.head? <;> simp)

/-! A tree fits the grammar if its names do, given what is asked of its instructions. -/

structure Statement.Fits (B : Body → Prop) (s : Statement) : Prop where
  result : ∀ name ∈ s.result, IsName name
  body : B s.body

structure Section.Fits (B : Body → Prop) (s : Section) : Prop where
  label : IsName s.label
  statements : ∀ st ∈ s.statements, st.Fits B

structure Definition.Fits (B : Body → Prop) (d : Definition) : Prop where
  name : IsName d.name
  params : ∀ p ∈ d.params, IsName p
  sections : ∀ s ∈ d.sections, s.Fits B
  /-- An open instruction at the end of a section takes nothing from the next label. -/
  closed : d.sections.IsChain fun s t =>
    (∃ st ∈ s.statements.getLast?, st.body.Open) → ¬ StartsTerm t.label

theorem Definition.Fits.imp {B B' : Body → Prop} {d : Definition} (h : d.Fits B)
    (hB : ∀ b, B b → B' b) : d.Fits B' where
  name := h.name
  params := h.params
  sections s hs := ⟨(h.sections s hs).label, fun st hst =>
    ⟨((h.sections s hs).statements st hst).result, hB _ ((h.sections s hs).statements st hst).body⟩⟩
  closed := h.closed

end Source

end FlowFacts
