import FlowFacts.Collection.OrderedMap
import FlowFacts.Program.Instruction

/-!
# Blocks, functions and modules

A function holds its blocks in order and its instructions in a table. Nothing here demands that
a function is well formed: block lists may name missing instructions, and the links between
blocks may be out of date. `Function.linked` brings the links up to date.
-/

namespace FlowFacts

/-- A straight run of instructions, with the blocks that control may come from and go to. -/
structure Block where
  id : BlockId
  label : String
  instructions : List InstId
  predecessors : List BlockId
  successors : List BlockId
deriving DecidableEq

namespace Block

/-- A block without instructions and links. -/
def fresh (id : BlockId) (label : String) : Block := ⟨id, label, [], [], []⟩

def first? (block : Block) : Option InstId := block.instructions.head?

/-- The last instruction; in a well-formed block it is the terminator. -/
def last? (block : Block) : Option InstId := block.instructions.getLast?

def size (block : Block) : Nat := block.instructions.length

def isEmpty (block : Block) : Bool := block.instructions.isEmpty

end Block

/-- A function: ordered blocks, of which the first one is the entry, over a table of
    instructions. -/
structure Function where
  name : String
  params : List String
  blocks : OrderedMap BlockId Block
  insts : Array Instruction
deriving DecidableEq

namespace Function

/-- A function without parameters and blocks. -/
def fresh (name : String) : Function := ⟨name, [], .empty, #[]⟩

/-- The instruction in the slot that `id` names. -/
def inst? (f : Function) (id : InstId) : Option Instruction := f.insts[id.slot]?

/-- The block stored under a number. -/
def block? (f : Function) (id : BlockId) : Option Block := f.blocks.get? id

def entryBlock? (f : Function) : Option Block := f.blocks.values.head?

/-- The last block, where the backward analyses start. -/
def exitBlock? (f : Function) : Option Block := f.blocks.values.getLast?

/-- The first block with the given label. -/
def blockByLabel? (f : Function) (label : String) : Option Block :=
  f.blocks.values.find? fun b => b.label = label

/-- The instructions of a block that exist, in order. -/
def instructionsOf (f : Function) (block : Block) : List Instruction :=
  block.instructions.filterMap f.inst?

/-- The instructions that exist, block by block. -/
def instructions (f : Function) : List Instruction := f.blocks.values.flatMap f.instructionsOf

/-- The number of instructions listed in blocks, existing or not. -/
def instructionCount (f : Function) : Nat := f.blocks.values.foldl (fun n block => n + block.size) 0

/-- The first instruction of the table with the given result name. -/
def findNamed? (f : Function) (name : String) : Option Instruction :=
  f.insts.find? fun inst => inst.name = some name

/-- The targets of the block's last instruction if that is a terminator. -/
def targetsOf (f : Function) (block : Block) : List BlockId :=
  match block.last?.bind f.inst? with
  | some inst => if inst.isTerminator then inst.targets else []
  | none => []

/-- Every transfer of control between blocks, in block order. -/
def transfers (f : Function) : List (BlockId × BlockId) :=
  f.blocks.values.flatMap fun block => (f.targetsOf block).map fun target => (block.id, target)

/-- The function with the links between its blocks derived from the terminators. Each list
    keeps the first of repeated blocks. -/
def linked (f : Function) : Function :=
  let transfers := f.transfers
  { f with
    blocks := f.blocks.mapWithKey fun id block =>
      { block with
        predecessors := ((transfers.filter fun t => t.2 = id).map Prod.fst).eraseDups
        successors := ((transfers.filter fun t => t.1 = id).map Prod.snd).eraseDups } }

end Function

/-- A named, ordered collection of functions. -/
structure Module where
  name : String
  functions : OrderedMap String Function
deriving DecidableEq

namespace Module

def fresh (name : String) : Module := ⟨name, .empty⟩

/-- Adds a function under its own name. -/
def add (m : Module) (f : Function) : Module :=
  { m with functions := m.functions.insert f.name f }

def function? (m : Module) (name : String) : Option Function := m.functions.get? name

def isEmpty (m : Module) : Bool := m.functions.isEmpty

end Module

end FlowFacts
