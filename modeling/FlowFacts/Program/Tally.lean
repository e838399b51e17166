import FlowFacts.Program.Function

/-!
# Counting opcodes

Static counts are taken from a function. Tallies are the counters of a running program: they add
up what they are told until they are printed, which also resets them.
-/

namespace FlowFacts

/-- How often an opcode occurs in a list of instructions. -/
def countIn (insts : List Instruction) (op : Opcode) : Nat := insts.countP fun i => i.opcode = op

namespace Opcode

/-- Inserts an opcode into a list sorted by name. -/
def insertByName (op : Opcode) : List Opcode → List Opcode
  | [] => [op]
  | o :: rest => if op.name ≤ o.name then op :: o :: rest else o :: insertByName op rest

/-- Every opcode, by name. -/
def byName : List Opcode := all.foldr insertByName []

/-- The counts that are positive, in the order of the given opcodes. -/
def listed (ops : List Opcode) (count : Opcode → Nat) : List (Opcode × Nat) :=
  ops.filterMap fun op => if count op = 0 then none else some (op, count op)

end Opcode

namespace Function

/-- How often each opcode occurs in a function, by name. -/
def staticCounts (f : Function) : List (Opcode × Nat) :=
  let insts := f.instructions
  Opcode.listed Opcode.byName (countIn insts)

/-- How often each opcode occurs in a block, in listing order. A missing block has none. -/
def histogram (f : Function) (block : BlockId) : List (Opcode × Nat) :=
  match f.block? block with
  | none => []
  | some blk =>
    let insts := f.instructionsOf blk
    Opcode.listed Opcode.all (countIn insts)

end Function

/-- How often each opcode occurs in a module, by name. -/
def Module.staticCounts (m : Module) : List (Opcode × Nat) :=
  let insts := m.functions.values.map Function.instructions
  Opcode.listed Opcode.byName fun op => insts.foldl (fun n is => n + countIn is op) 0

/-- Opcode counts of a running program, for the opcodes seen. -/
structure OpcodeTally where
  counts : OrderedMap Opcode Nat

namespace OpcodeTally

def fresh : OpcodeTally := ⟨.empty⟩

def count (t : OpcodeTally) (op : Opcode) : Nat := (t.counts.get? op).getD 0

/-- Adds to the count of an opcode. A count has 64 bits and wraps around. -/
def add (t : OpcodeTally) (entry : Opcode × Nat) : OpcodeTally :=
  ⟨t.counts.insert entry.1 ((t.count entry.1 + entry.2) % UInt64.size)⟩

def update (t : OpcodeTally) (entries : List (Opcode × Nat)) : OpcodeTally := entries.foldl add t

def isEmpty (t : OpcodeTally) : Bool := t.counts.isEmpty

/-- A line for each opcode seen, in listing order. -/
def text (t : OpcodeTally) : String :=
  String.join (Opcode.all.filterMap fun op =>
    (t.counts.get? op).map fun n => op.name ++ "\t" ++ toString n ++ "\n")

/-- The text, and the tally reset. -/
def printAndReset (t : OpcodeTally) : String × OpcodeTally := (t.text, fresh)

end OpcodeTally

/-- Branch outcomes of a running program: how many branches were taken, of how many. -/
structure BranchTally where
  taken : Nat := 0
  total : Nat := 0
deriving DecidableEq

namespace BranchTally

/-- Counts a branch. The counts have 64 bits and wrap around. -/
def update (t : BranchTally) (taken : Bool) : BranchTally :=
  ⟨if taken then (t.taken + 1) % UInt64.size else t.taken, (t.total + 1) % UInt64.size⟩

/-- The two counts, a line each. -/
def text (t : BranchTally) : String :=
  "taken\t" ++ toString t.taken ++ "\ntotal\t" ++ toString t.total ++ "\n"

/-- The text, and the tally reset. -/
def printAndReset (t : BranchTally) : String × BranchTally := (t.text, {})

end BranchTally

end FlowFacts
