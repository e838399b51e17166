import FlowFacts.Program.Builder
import FlowFacts.Source.Grammar

/-!
# From program texts to modules

Names are resolved in two rounds. The first collects the parameters, labels and results of a
function, so that operands and jumps may refer to what comes later. The second turns each
statement into a builder step. The builder then checks the shape of the blocks.
-/

namespace FlowFacts

/-- Why a text does not denote a module. -/
inductive SourceError where
  | malformed
  | undefinedValue (function name : String)
  | undefinedBlock (function label : String)
  | duplicateValue (function name : String)
  | duplicateBlock (function label : String)
  | duplicateFunction (function : String)
  | unknownOpcode (function opcode : String)
  | invalidInteger (function literal : String)
  | build (error : BuildError)
deriving DecidableEq

/-- What is wrong with a text that does not follow the grammar. -/
def SourceError.grammarDetail : String := "not a program text"

def SourceError.message : SourceError → String
  | .malformed => "Syntax error: " ++ grammarDetail
  | .undefinedValue function name => "Undefined value %" ++ name ++ " in @" ++ function
  | .undefinedBlock function label => "Undefined block %" ++ label ++ " in @" ++ function
  | .duplicateValue function name => "Value %" ++ name ++ " defined twice in @" ++ function
  | .duplicateBlock function label => "Block " ++ label ++ " defined twice in @" ++ function
  | .duplicateFunction function => "Function @" ++ function ++ " defined twice"
  | .unknownOpcode function opcode => "Unknown opcode '" ++ opcode ++ "' in @" ++ function
  | .invalidInteger function literal =>
    "Integer literal " ++ literal ++ " out of range in @" ++ function
  | .build error => error.message

namespace Source

/-- What the names of one function stand for: those of parameters and results, and labels. -/
structure Scope where
  function : String
  values : OrderedMap String Operand
  blocks : OrderedMap String BlockId

namespace Scope

/-! ## Collecting names -/

/-- Gives a meaning to a new name. -/
def define (scope : Scope) (name : String) (operand : Operand) : Except SourceError Scope :=
  if scope.values.contains name then .error (.duplicateValue scope.function name)
  else .ok { scope with values := scope.values.insert name operand }

/-- Collects parameters; `position` is the position of the first one. -/
def defineParams (scope : Scope) (position : Nat) : List String → Except SourceError Scope
  | [] => .ok scope
  | name :: rest => do
    let scope ← scope.define name (.arg (UInt32.ofNat position))
    scope.defineParams (position + 1) rest

/-- Collects the results of statements; `slot` is the table slot of the first one. -/
def defineResults (scope : Scope) (slot : Nat) : List Statement → Except SourceError Scope
  | [] => .ok scope
  | s :: rest => do
    let scope ← match s.result with
      | none => pure scope
      | some name => scope.define name (.inst (.ofSlot slot))
    scope.defineResults (slot + 1) rest

/-- Gives the next block number to a new label. -/
def defineLabel (scope : Scope) (label : String) : Except SourceError Scope :=
  if scope.blocks.contains label then .error (.duplicateBlock scope.function label)
  else .ok { scope with blocks := scope.blocks.insert label (.ofNat scope.blocks.size) }

/-- Collects the labels and results of sections. -/
def defineSections (scope : Scope) (slot : Nat) : List Section → Except SourceError Scope
  | [] => .ok scope
  | s :: rest => do
    let scope ← scope.defineLabel s.label
    let scope ← scope.defineResults slot s.statements
    scope.defineSections (slot + s.statements.length) rest

def ofDefinition (d : Definition) : Except SourceError Scope := do
  let scope : Scope := ⟨d.name, .empty, .empty⟩
  let scope ← scope.defineParams 0 d.params
  scope.defineSections 0 d.sections

/-! ## Looking names up -/

def value (scope : Scope) (name : String) : Except SourceError Operand :=
  match scope.values.get? name with
  | some operand => .ok operand
  | none => .error (.undefinedValue scope.function name)

def block (scope : Scope) (label : String) : Except SourceError BlockId :=
  match scope.blocks.get? label with
  | some id => .ok id
  | none => .error (.undefinedBlock scope.function label)

/-- The integer that a literal denotes. -/
def literalValue (literal : String) : Int :=
  match literal.toList with
  | '-' :: digits => -(Nat.ofDigitChars 10 digits 0 : Int)
  | digits => Nat.ofDigitChars 10 digits 0

/-- The constant that a literal denotes; it has to fit into 64 bits. -/
def integer (scope : Scope) (literal : String) : Except SourceError Int64 :=
  let n := literalValue literal
  if Int64.minValue.toInt ≤ n ∧ n ≤ Int64.maxValue.toInt then .ok (Int64.ofInt n)
  else .error (.invalidInteger scope.function literal)

def operand (scope : Scope) : Term → Except SourceError Operand
  | .value name => scope.value name
  | .global name => .ok (.global name)
  | .integer literal => do return .const (← scope.integer literal)
  | .null => .ok .null
  | .undefined => .ok .undefined

/-- The builder step that an instruction denotes. Its parts are looked up from left to right. -/
def step (scope : Scope) : Body → Except SourceError Builder.Step
  | .phi incoming => do
    return .appendMerge (← incoming.mapM fun p => do
      return (← scope.operand p.1, ← scope.block p.2))
  | .condBr condition thenLabel elseLabel => do
    return .branch (← scope.operand condition) (← scope.block thenLabel) (← scope.block elseLabel)
  | .br label => do return .jump (← scope.block label)
  | .switch value default cases => do
    return .switch (← scope.operand value) (← scope.block default) (← cases.mapM fun c => do
      return (← scope.integer c.1, ← scope.block c.2))
  | .call callee args => do return .call callee (← args.mapM scope.operand)
  | .generic opcode operands => do
    match Opcode.ofName? opcode with
    | none => .error (.unknownOpcode scope.function opcode)
    | some op =>
      let operands ← operands.mapM scope.operand
      return if op.isTerminator then .appendTerminator op operands [] else .append op operands

end Scope

/-! ## Building -/

def perform (b : Builder) (s : Builder.Step) : Except SourceError Builder :=
  (b.step s).mapError .build

/-- Appends a statement to the current block. -/
def addStatement (scope : Scope) (b : Builder) (s : Statement) : Except SourceError Builder := do
  let step ← scope.step s.body
  let built ← perform b step
  return match s.result with
    | none => built
    | some name => built.setName b.nextInst name

/-- Appends the statements of a section to its block. -/
def addSection (scope : Scope) (b : Builder) (s : Section) : Except SourceError Builder := do
  let id ← scope.block s.label
  let b ← perform b (.switchTo id)
  s.statements.foldlM (addStatement scope) b

/-- A builder with the parameters and blocks of a function, and no instructions. -/
def skeleton (d : Definition) : Builder :=
  d.sections.foldl (fun b s => b.createBlock s.label) (d.params.foldl Builder.param (.fresh d.name))

/-- The function that a definition denotes. -/
def Definition.resolve (d : Definition) : Except SourceError Function := do
  let scope ← Scope.ofDefinition d
  let b ← d.sections.foldlM (addSection scope) (skeleton d)
  b.build.mapError .build

/-- Adds the function that a definition denotes; its name has to be new. -/
def addDefinition (m : Module) (d : Definition) : Except SourceError Module := do
  let f ← d.resolve
  if (m.function? f.name).isSome then .error (.duplicateFunction f.name) else return m.add f

/-- The module that definitions denote. -/
def resolve (name : String) (definitions : List Definition) : Except SourceError Module :=
  definitions.foldlM addDefinition (.fresh name)

end Source

/-- The module of the given name that a text denotes. -/
def Module.parse (name text : String) : Except SourceError Module :=
  match Source.parse? text with
  | none => .error .malformed
  | some definitions => Source.resolve name definitions

end FlowFacts
