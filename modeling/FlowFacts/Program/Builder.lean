import FlowFacts.Program.Function

/-!
# Building functions

A `Builder` creates blocks and appends instructions to the current one. Misuse does not stop it:
each fault is noted, and `build` hands over the function only when nothing was noted and nothing
is missing. The links between blocks are derived at the end.
-/

namespace FlowFacts

/-- One way to misuse a builder. -/
inductive BuildFault where
  | noCurrentBlock (opcode : Opcode)
  | afterTerminator (opcode : Opcode) (label : String)
  | lateMerge (label : String)
  | notTerminator (opcode : Opcode)
  | noBlocks (function : String)
  | unterminated (label : String)
  | unknownBlock (inst : InstId) (block : BlockId)
deriving DecidableEq

def BuildFault.message : BuildFault → String
  | .noCurrentBlock op => op.name ++ " appended without a current block"
  | .afterTerminator op label => op.name ++ " appended to terminated block " ++ label
  | .lateMerge label => "phi after non-phi instruction in block " ++ label
  | .notTerminator op => op.name ++ " is not a terminator opcode"
  | .noBlocks function => "function " ++ function ++ " has no blocks"
  | .unterminated label => "block " ++ label ++ " has no terminator"
  | .unknownBlock inst block =>
    "instruction " ++ inst.text ++ " refers to unknown block " ++ block.text

/-- Why a builder refuses: a block that does not exist cannot become current, and a function with
    faults cannot be handed over. -/
inductive BuildError where
  | noSuchBlock (block : BlockId) (function : String)
  | misuse (faults : List BuildFault)
deriving DecidableEq

/-- The error in words; several faults are separated by semicolons. -/
def BuildError.message : BuildError → String
  | .noSuchBlock block function =>
    "Builder error: Block " ++ block.text ++ " does not exist in function " ++ function
  | .misuse faults => "Builder error: " ++ "; ".intercalate (faults.map BuildFault.message)

/-- A function under construction, with the block that instructions are appended to and the faults
    noted so far, oldest first. -/
structure Builder where
  function : Function
  current : Option BlockId
  faults : List BuildFault

namespace Builder

/-- The start of a function. -/
def fresh (name : String) : Builder := ⟨.fresh name, none, []⟩

/-- The number that the next instruction receives. -/
def nextInst (b : Builder) : InstId := .ofSlot b.function.insts.size

/-- The number that the next block receives. -/
def nextBlock (b : Builder) : BlockId := .ofNat b.function.blocks.size

/-- The operand for the next parameter. -/
def nextParam (b : Builder) : Operand := .arg (UInt32.ofNat b.function.params.length)

def note (b : Builder) (fault : BuildFault) : Builder := { b with faults := b.faults ++ [fault] }

/-- Adds a parameter; `nextParam` was its operand. -/
def param (b : Builder) (name : String) : Builder :=
  { b with function := { b.function with params := b.function.params ++ [name] } }

/-- Adds a block at the end, without making it current; `nextBlock` was its number. -/
def createBlock (b : Builder) (label : String) : Builder :=
  { b with
    function :=
      { b.function with
        blocks := b.function.blocks.insert b.nextBlock (.fresh b.nextBlock label) } }

/-- Adds a block at the end and makes it current. -/
def block (b : Builder) (label : String) : Builder :=
  { b.createBlock label with current := some b.nextBlock }

/-- Makes an existing block current. -/
def switchTo (b : Builder) (block : BlockId) : Except BuildError Builder :=
  if b.function.blocks.contains block then .ok { b with current := some block }
  else .error (.noSuchBlock block b.function.name)

/-- Names the result of an instruction; a missing instruction is passed over. -/
def setName (b : Builder) (id : InstId) (name : String) : Builder :=
  { b with
    function :=
      { b.function with
        insts := b.function.insts.modify id.slot fun inst => { inst with name := some name } } }

/-- What is wrong with appending `opcode` to a block, if anything. -/
def placementFault? (b : Builder) (block : BlockId) (opcode : Opcode) : Option BuildFault :=
  match b.function.block? block with
  | none => none
  | some blk =>
    match blk.last?.bind b.function.inst? with
    | none => none
    | some last =>
      if last.isTerminator then some (.afterTerminator opcode blk.label)
      else if opcode.isMerge && !last.isMerge then some (.lateMerge blk.label)
      else none

/-- Enters an instruction into the table and into the list of its block. -/
def place (f : Function) (inst : Instruction) : Function :=
  { f with
    insts := f.insts.push inst
    blocks := f.blocks.modify inst.block fun blk =>
      { blk with instructions := blk.instructions ++ [inst.id] } }

/-- Appends an instruction to the current block, noting a fault if it does not belong there.
    Without a current block nothing is appended. -/
def push (b : Builder) (opcode : Opcode) (operands : List Operand) (incoming targets : List BlockId) :
    Builder :=
  match b.current with
  | none => b.note (.noCurrentBlock opcode)
  | some block =>
    { b with
      function := place b.function ⟨b.nextInst, none, opcode, operands, incoming, targets, block⟩
      faults := b.faults ++ (b.placementFault? block opcode).toList }

def append (b : Builder) (opcode : Opcode) (operands : List Operand) : Builder :=
  b.push opcode operands [] []

/-- Appends a merge of the given operands, each with the block it arrives from. -/
def appendMerge (b : Builder) (incoming : List (Operand × BlockId)) : Builder :=
  b.push .phi (incoming.map Prod.fst) (incoming.map Prod.snd) []

def appendTerminator (b : Builder) (opcode : Opcode) (operands : List Operand)
    (targets : List BlockId) : Builder :=
  let b := if opcode.isTerminator then b else b.note (.notTerminator opcode)
  b.push opcode operands [] targets

/-! ## Handing over -/

/-- Whether the block ends with a terminator. -/
def isTerminated (f : Function) (block : Block) : Bool :=
  match block.last?.bind f.inst? with
  | some inst => inst.isTerminator
  | none => false

/-- The references of an instruction to blocks that do not exist: targets, then incoming. -/
def unknownBlocks (f : Function) (inst : Instruction) : List BuildFault :=
  (inst.targets ++ inst.incoming).filterMap fun block =>
    if f.blocks.contains block then none else some (.unknownBlock inst.id block)

/-- What is still missing from a function. -/
def closingFaults (f : Function) : List BuildFault :=
  (if f.blocks.isEmpty then [.noBlocks f.name] else []) ++
    f.blocks.values.filterMap (fun block =>
      if isTerminated f block then none else some (.unterminated block.label)) ++
    f.insts.toList.flatMap (unknownBlocks f)

/-- Hands over the function, linked, unless there is a fault. -/
def build (b : Builder) : Except BuildError Function :=
  match b.faults ++ closingFaults b.function with
  | [] => .ok b.function.linked
  | faults => .error (.misuse faults)

/-! ## Single instructions -/

/-- One thing to do with a builder. -/
inductive Step where
  | param (name : String)
  | createBlock (label : String)
  | block (label : String)
  | switchTo (block : BlockId)
  | setName (inst : InstId) (name : String)
  | append (opcode : Opcode) (operands : List Operand)
  | appendMerge (incoming : List (Operand × BlockId))
  | appendTerminator (opcode : Opcode) (operands : List Operand) (targets : List BlockId)
deriving DecidableEq

/-- Carries out a step. -/
def step (b : Builder) : Step → Except BuildError Builder
  | .param name => .ok (b.param name)
  | .createBlock label => .ok (b.createBlock label)
  | .block label => .ok (b.block label)
  | .switchTo block => b.switchTo block
  | .setName inst name => .ok (b.setName inst name)
  | .append opcode operands => .ok (b.append opcode operands)
  | .appendMerge incoming => .ok (b.appendMerge incoming)
  | .appendTerminator opcode operands targets => .ok (b.appendTerminator opcode operands targets)

/-- Carries out steps one after the other, passing over those that fail. -/
def run (b : Builder) (steps : List Step) : Builder :=
  steps.foldl (fun b s => (b.step s).toOption.getD b) b

namespace Step

/-- An instruction with two operands. -/
def binary (opcode : Opcode) (left right : Operand) : Step := .append opcode [left, right]

def alloca : Step := .append .alloca []

def load (pointer : Operand) : Step := .append .load [pointer]

/-- A store; the value comes before the pointer. -/
def store (value pointer : Operand) : Step := .append .store [value, pointer]

def bitcast (value : Operand) : Step := .append .bitcast [value]

def elementPtr (pointer : Operand) (indices : List Operand) : Step :=
  .append .getelementptr (pointer :: indices)

def select (condition thenValue elseValue : Operand) : Step :=
  .append .select [condition, thenValue, elseValue]

def call (callee : String) (args : List Operand) : Step := .append .call (.global callee :: args)

def jump (target : BlockId) : Step := .appendTerminator .br [] [target]

def branch (condition : Operand) (thenBlock elseBlock : BlockId) : Step :=
  .appendTerminator .br [condition] [thenBlock, elseBlock]

/-- A jump chosen by value: the first target is the default, the others go with the cases. -/
def switch (value : Operand) (default : BlockId) (cases : List (Int64 × BlockId)) : Step :=
  .appendTerminator .switch (value :: cases.map fun c => .const c.1) (default :: cases.map Prod.snd)

/-- A return, with or without a value. -/
def ret (value : Option Operand) : Step := .appendTerminator .ret value.toList []

def unreachable : Step := .appendTerminator .unreachable [] []

end Step

end Builder

end FlowFacts
