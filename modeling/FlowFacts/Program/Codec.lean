import FlowFacts.Json.Decode
import FlowFacts.Json.Parser
import FlowFacts.Json.Printer
import FlowFacts.Program.Function

/-!
# The JSON form of programs

Identifiers are plain numbers, records are objects with their fields in a fixed order, and the
blocks of a function are an object whose names are the block numbers in decimal. Maps keep their
order, and the key of an entry need not agree with the number or name inside.
-/

namespace FlowFacts

namespace InstId

def toJson (id : InstId) : Json := .nat id.slot

def ofJson? (value : JsonText) : Option InstId := value.word32?.map mk

end InstId

namespace BlockId

def toJson (id : BlockId) : Json := .nat id.toNat

def ofJson? (value : JsonText) : Option BlockId := value.word32?.map mk

/-- The identifier as the name of a field. -/
def key (id : BlockId) : String := toString id.toNat

/-- The identifier that the name of a field denotes: a decimal number of 32 bits, without
    superfluous zeros and without escapes. -/
def ofKey? (name : Quoted) : Option BlockId :=
  match name.spelling with
  | [] => none
  | ['0'] => some (ofNat 0)
  | '0' :: _ => none
  | digits =>
    if digits.all Char.isDigit ∧ Nat.ofDigitChars 10 digits 0 < UInt32.size then
      some (ofNat (Nat.ofDigitChars 10 digits 0))
    else none

end BlockId

namespace Opcode

def toJson (op : Opcode) : Json := .str op.name

def ofJson? (value : JsonText) : Option Opcode := value.named? ofName?

end Opcode

namespace Operand

/-- An operand as JSON: a name, with the payload as the value of an object's only field. -/
def toJson : Operand → Json
  | inst id => .obj [("Inst", id.toJson)]
  | arg position => .obj [("Arg", .nat position.toNat)]
  | const value => .obj [("Const", .int value.toInt)]
  | global name => .obj [("Global", .str name)]
  | null => .str "Null"
  | undefined => .str "Undef"

def ofJson? (value : JsonText) : Option Operand :=
  match value.choice? with
  | some ("Inst", some payload) => (InstId.ofJson? payload).map inst
  | some ("Arg", some payload) => payload.word32?.map arg
  | some ("Const", some payload) => payload.signed?.map const
  | some ("Global", some payload) => payload.str?.map global
  | some ("Null", none) | some ("Null", some .null) => some null
  | some ("Undef", none) | some ("Undef", some .null) => some undefined
  | _ => none

end Operand

namespace Instruction

def toJson (inst : Instruction) : Json :=
  .obj
    [("id", inst.id.toJson), ("name", .option .str inst.name), ("opcode", inst.opcode.toJson),
      ("operands", .list Operand.toJson inst.operands),
      ("incoming", .list BlockId.toJson inst.incoming),
      ("targets", .list BlockId.toJson inst.targets), ("block", inst.block.toJson)]

/-- An instruction from JSON; a missing name counts as no name. -/
def ofJson? (value : JsonText) : Option Instruction := do
  match ← value.record? ["id", "name", "opcode", "operands", "incoming", "targets", "block"] with
  | [some id, name, some opcode, some operands, some incoming, some targets, some block] =>
    return {
      id := ← InstId.ofJson? id
      name := ← (name.getD .null).nullable? JsonText.str?
      opcode := ← Opcode.ofJson? opcode
      operands := ← operands.list? Operand.ofJson?
      incoming := ← incoming.list? BlockId.ofJson?
      targets := ← targets.list? BlockId.ofJson?
      block := ← BlockId.ofJson? block }
  | _ => none

end Instruction

namespace Block

def toJson (block : Block) : Json :=
  .obj
    [("id", block.id.toJson), ("label", .str block.label),
      ("instructions", .list InstId.toJson block.instructions),
      ("predecessors", .list BlockId.toJson block.predecessors),
      ("successors", .list BlockId.toJson block.successors)]

def ofJson? (value : JsonText) : Option Block := do
  match ← value.record? ["id", "label", "instructions", "predecessors", "successors"] with
  | [some id, some label, some instructions, some predecessors, some successors] =>
    return {
      id := ← BlockId.ofJson? id
      label := ← label.str?
      instructions := ← instructions.list? InstId.ofJson?
      predecessors := ← predecessors.list? BlockId.ofJson?
      successors := ← successors.list? BlockId.ofJson? }
  | _ => none

end Block

/-- A map as JSON: an object with a field for each entry. -/
def OrderedMap.toJson {κ α : Type} (key : κ → String) (f : α → Json) (m : OrderedMap κ α) : Json :=
  .obj (m.entries.map fun e => (key e.1, f e.2))

/-- A map from JSON. Of repeated keys the first gives the place and the last the value. -/
def OrderedMap.ofJson? {κ α : Type} [DecidableEq κ] (key? : Quoted → Option κ)
    (f : JsonText → Option α) : JsonText → Option (OrderedMap κ α)
  | .obj fields => do
    let entries ← fields.mapM fun field => do return (← key? field.1, ← f field.2)
    return .ofList entries
  | _ => none

namespace Function

def toJson (f : Function) : Json :=
  .obj
    [("name", .str f.name), ("params", .list .str f.params),
      ("blocks", f.blocks.toJson BlockId.key Block.toJson),
      ("insts", .list Instruction.toJson f.insts.toList)]

def ofJson? (value : JsonText) : Option Function := do
  match ← value.record? ["name", "params", "blocks", "insts"] with
  | [some name, some params, some blocks, some insts] =>
    return {
      name := ← name.str?
      params := ← params.list? JsonText.str?
      blocks := ← OrderedMap.ofJson? BlockId.ofKey? Block.ofJson? blocks
      insts := (← insts.list? Instruction.ofJson?).toArray }
  | _ => none

end Function

namespace Module

def toJson (m : Module) : Json :=
  .obj [("name", .str m.name), ("functions", m.functions.toJson id Function.toJson)]

def ofJson? (value : JsonText) : Option Module := do
  match ← value.record? ["name", "functions"] with
  | [some name, some functions] =>
    return {
      name := ← name.str?
      functions := ← OrderedMap.ofJson? Quoted.text? Function.ofJson? functions }
  | _ => none

/-- The text of a module's JSON form, without blanks. -/
def encode (m : Module) : String := m.toJson.compact

/-- The module that a JSON text denotes. -/
def decode? (text : String) : Option Module := (JsonText.parse? text).bind ofJson?

end Module

end FlowFacts
