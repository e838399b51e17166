import FlowFacts.Collection.SortedSet
import FlowFacts.Json.Decode

/-!
# Locations

What may point and what may be pointed to: the value of an instruction, or the memory object
that an allocation creates. Values come before memory objects.
-/

namespace FlowFacts

/-- The value of the instruction at an index, or the memory object that the allocation at an index
    creates. -/
inductive Location where
  | value (index : Nat)
  | memory (index : Nat)
deriving DecidableEq

namespace Location

/-- Whether the location is a memory object. -/
def isMemory : Location → Bool
  | value _ => false
  | memory _ => true

/-- All values before all memory objects, each by index. -/
def Below : Location → Location → Prop
  | value i, value j => i < j
  | value _, memory _ => True
  | memory _, value _ => False
  | memory i, memory j => i < j

instance : (a b : Location) → Decidable (Below a b)
  | value i, value j => inferInstanceAs (Decidable (i < j))
  | value _, memory _ => inferInstanceAs (Decidable True)
  | memory _, value _ => inferInstanceAs (Decidable False)
  | memory i, memory j => inferInstanceAs (Decidable (i < j))

instance : StrictOrder Location where
  lt := Below
  decLt a b := inferInstanceAs (Decidable (Below a b))
  lt_irrefl a h := by cases a <;> exact Nat.lt_irrefl _ h
  lt_trans {a b c} hab hbc := by
    cases a <;> cases b <;> cases c <;>
      first | trivial | exact Nat.lt_trans hab hbc
  eq_of_not_lt {a b} hab hba := by
    cases a with
    | value i =>
      cases b with
      | value j => rw [Nat.le_antisymm (Nat.le_of_not_lt hba) (Nat.le_of_not_lt hab)]
      | memory j => exact (hab trivial).elim
    | memory i =>
      cases b with
      | value j => exact (hba trivial).elim
      | memory j => rw [Nat.le_antisymm (Nat.le_of_not_lt hba) (Nat.le_of_not_lt hab)]

/-- The location as text, such as `R1` or `M1`. -/
def text : Location → String
  | value index => "R" ++ toString index
  | memory index => "M" ++ toString index

def toJson : Location → Json
  | value index => .obj [("index", .nat index), ("kind", .str "value")]
  | memory index => .obj [("index", .nat index), ("kind", .str "memory_object")]

/-- The kind of location with the given name. -/
def kind? : String → Option (Nat → Location)
  | "value" => some value
  | "memory_object" => some memory
  | _ => none

def ofJson? (json : JsonText) : Option Location := do
  match ← json.record? ["kind", "index"] with
  | [some kind, some index] => return (← kind.named? kind?) (← index.index?)
  | _ => none

end Location

end FlowFacts
