/-!
# Opcodes

The instruction set: its names in the textual form and the classes that the analyses ask about.

Main results: `ofName?_name` and `name_of_ofName?` say that names and opcodes determine each other.
-/

namespace FlowFacts

/-- What an instruction does. The order of the constructors is the order of listings. -/
inductive Opcode where
  | ret
  | br
  | switch
  | unreachable
  | add
  | fadd
  | sub
  | fsub
  | mul
  | fmul
  | udiv
  | sdiv
  | fdiv
  | urem
  | srem
  | frem
  | shl
  | lshr
  | ashr
  | and
  | or
  | xor
  | alloca
  | load
  | store
  | getelementptr
  | trunc
  | zext
  | sext
  | ptrtoint
  | inttoptr
  | bitcast
  | icmp
  | fcmp
  | phi
  | call
  | select
deriving DecidableEq

namespace Opcode

/-- Every opcode, in listing order. -/
def all : List Opcode :=
  [ret, br, switch, unreachable, add, fadd, sub, fsub, mul, fmul, udiv, sdiv, fdiv, urem, srem,
    frem, shl, lshr, ashr, and, or, xor, alloca, load, store, getelementptr, trunc, zext, sext,
    ptrtoint, inttoptr, bitcast, icmp, fcmp, phi, call, select]

theorem mem_all (op : Opcode) : op ∈ all := by cases op <;> decide

theorem nodup_all : all.Nodup := by decide

/-- The opcode's name in text and in JSON. -/
def name : Opcode → String
  | ret => "ret"
  | br => "br"
  | switch => "switch"
  | unreachable => "unreachable"
  | add => "add"
  | fadd => "fadd"
  | sub => "sub"
  | fsub => "fsub"
  | mul => "mul"
  | fmul => "fmul"
  | udiv => "udiv"
  | sdiv => "sdiv"
  | fdiv => "fdiv"
  | urem => "urem"
  | srem => "srem"
  | frem => "frem"
  | shl => "shl"
  | lshr => "lshr"
  | ashr => "ashr"
  | and => "and"
  | or => "or"
  | xor => "xor"
  | alloca => "alloca"
  | load => "load"
  | store => "store"
  | getelementptr => "getelementptr"
  | trunc => "trunc"
  | zext => "zext"
  | sext => "sext"
  | ptrtoint => "ptrtoint"
  | inttoptr => "inttoptr"
  | bitcast => "bitcast"
  | icmp => "icmp"
  | fcmp => "fcmp"
  | phi => "phi"
  | call => "call"
  | select => "select"

def ofName? (s : String) : Option Opcode := all.find? fun op => op.name = s

theorem ofName?_name (op : Opcode) : ofName? op.name = some op := by cases op <;> rfl

theorem name_of_ofName? {s : String} {op : Opcode} (h : ofName? s = some op) : op.name = s := by
  simpa using List.find?_some h

theorem name_injective {a b : Opcode} (h : a.name = b.name) : a = b :=
  Option.some.inj (by rw [← ofName?_name a, ← ofName?_name b, h])

/-- The place of the opcode in `all`. -/
def position (op : Opcode) : Nat := all.idxOf op

/-- Whether the result is a fresh definition: arithmetic, bitwise, comparing and selecting
    opcodes, and those that allocate, load or compute an address. -/
def isValueDefining : Opcode → Bool
  | add | fadd | sub | fsub | mul | fmul | udiv | sdiv | fdiv | urem | srem | frem => true
  | shl | lshr | ashr | and | or | xor => true
  | alloca | load | getelementptr => true
  | icmp | fcmp | select => true
  | _ => false

/-- Whether the instruction ends its block. -/
def isTerminator : Opcode → Bool
  | ret | br | switch | unreachable => true
  | _ => false

/-- Whether the instruction merges values that arrive from different blocks. -/
def isMerge (op : Opcode) : Bool := op = phi

/-- Whether the instruction creates a memory object. -/
def isAllocation (op : Opcode) : Bool := op = alloca

/-- Whether the result is an alias of operand 0. -/
def isAddressCast : Opcode → Bool
  | bitcast | getelementptr => true
  | _ => false

/-- Whether the instruction produces a value that can be named in text. -/
def hasResult : Opcode → Bool
  | ret | br | switch | unreachable | store => false
  | _ => true

end Opcode

end FlowFacts
