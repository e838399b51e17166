import FlowFacts.Program.Function

/-!
# The textual form

Printing of operands, instructions, functions and modules. A result without a name prints as
`%.k` where `k` is the number that its instruction carries; references to what does not exist
print by number.
-/

namespace FlowFacts

/-- The name that the result of an instruction prints under. -/
def Instruction.valueName (inst : Instruction) : String :=
  match inst.name with
  | some name => "%" ++ name
  | none => "%." ++ toString inst.id.slot

namespace Function

def operandText (f : Function) : Operand → String
  | .inst id =>
    match f.inst? id with
    | some inst => inst.valueName
    | none => "%." ++ toString id.slot
  | .arg position =>
    match f.params[position.toNat]? with
    | some name => "%" ++ name
    | none => "%arg" ++ toString position.toNat
  | .const value => toString value.toInt
  | .global name => "@" ++ name
  | .null => "null"
  | .undefined => "undef"

/-- The label of a block, or its number if it does not exist. -/
def labelName (f : Function) (id : BlockId) : String :=
  match f.block? id with
  | some block => block.label
  | none => id.text

/-- A reference to a jump target. -/
def labelText (f : Function) (id : BlockId) : String := "label %" ++ f.labelName id

/-- One operand of a merge with the block it arrives from. -/
def incomingText (f : Function) (pair : Operand × BlockId) : String :=
  "[ " ++ f.operandText pair.1 ++ ", %" ++ f.labelName pair.2 ++ " ]"

/-- An instruction without the name of its result. -/
def bodyText (f : Function) (inst : Instruction) : String :=
  let operands := inst.operands.map f.operandText
  let targets := inst.targets.map f.labelText
  let first (texts : List String) : String := texts.head?.getD ""
  match inst.opcode with
  | .phi => "phi " ++ ", ".intercalate (inst.incomingPairs.map f.incomingText)
  | .br =>
    match targets with
    | [thenText, elseText] => "br " ++ first operands ++ ", " ++ thenText ++ ", " ++ elseText
    | _ => "br " ++ first targets
  | .switch =>
    "switch " ++ first operands ++ ", " ++ first targets ++
      String.join ((operands.tail.zip targets.tail).map fun c => " [ " ++ c.1 ++ ", " ++ c.2 ++ " ]")
  | .call => "call " ++ first operands ++ "(" ++ ", ".intercalate operands.tail ++ ")"
  | opcode =>
    match operands with
    | [] => opcode.name
    | _ => opcode.name ++ " " ++ ", ".intercalate operands

def instText (f : Function) (inst : Instruction) : String :=
  if inst.opcode.hasResult then inst.valueName ++ " = " ++ f.bodyText inst else f.bodyText inst

/-- A block in text, a line for the label and one for each existing instruction. -/
def blockText (f : Function) (block : Block) : String :=
  block.label ++ ":\n" ++
    String.join ((f.instructionsOf block).map fun inst => "  " ++ f.instText inst ++ "\n")

/-- A function in text; an empty line separates blocks. -/
def text (f : Function) : String :=
  "define @" ++ f.name ++ "(" ++ ", ".intercalate (f.params.map fun p => "%" ++ p) ++ ") \x7b\n" ++
    "\n".intercalate (f.blocks.values.map f.blockText) ++ "\x7d\n"

end Function

/-- A module in text; an empty line separates functions. -/
def Module.text (m : Module) : String := "\n".intercalate (m.functions.values.map Function.text)

end FlowFacts
