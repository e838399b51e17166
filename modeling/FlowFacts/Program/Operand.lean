/-!
# Identifiers and operands

Instructions and blocks are referred to by 32-bit numbers. An operand is a reference to an
instruction or a value that no analysis tracks.
-/

namespace FlowFacts

/-- The number of an instruction: its slot in the function's instruction table. -/
structure InstId where
  number : UInt32
deriving DecidableEq

/-- The number of a block. -/
structure BlockId where
  number : UInt32
deriving DecidableEq

namespace InstId

/-- The table slot that the identifier names. -/
def slot (id : InstId) : Nat := id.number.toNat

/-- The identifier of a table slot; slots from 2^32 on wrap around. -/
def ofSlot (slot : Nat) : InstId := ⟨UInt32.ofNat slot⟩

/-- The identifier as text, such as `i3`. -/
def text (id : InstId) : String := "i" ++ toString id.slot

theorem slot_ofSlot {n : Nat} (h : n < UInt32.size) : (ofSlot n).slot = n :=
  UInt32.toNat_ofNat_of_lt' h

theorem slot_injective {a b : InstId} (h : a.slot = b.slot) : a = b := by
  cases a; cases b
  exact congrArg _ (UInt32.toNat_inj.1 h)

theorem ofSlot_slot (id : InstId) : ofSlot id.slot = id := by
  cases id
  simp [ofSlot, slot]

end InstId

namespace BlockId

/-- The identifier of the block with the given number; numbers from 2^32 on wrap around. -/
def ofNat (n : Nat) : BlockId := ⟨UInt32.ofNat n⟩

def toNat (id : BlockId) : Nat := id.number.toNat

/-- The identifier as text, such as `bb3`. -/
def text (id : BlockId) : String := "bb" ++ toString id.toNat

theorem toNat_ofNat {n : Nat} (h : n < UInt32.size) : (ofNat n).toNat = n :=
  UInt32.toNat_ofNat_of_lt' h

end BlockId

/-- An argument of an instruction. Only instruction references take part in dataflow. -/
inductive Operand where
  | inst (id : InstId)
  | arg (position : UInt32)
  | const (value : Int64)
  | global (name : String)
  | null
  | undefined
deriving DecidableEq

/-- The instruction that the operand refers to. -/
def Operand.inst? : Operand → Option InstId
  | .inst id => some id
  | _ => none

end FlowFacts
