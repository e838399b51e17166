import FlowFacts.Number.Shortest

/-!
# JSON values

Objects keep their fields in order, repeated names included. Integers are kept apart from
binary numbers, because only integers stand for counts and identifiers.
-/

namespace FlowFacts

/-- A JSON value. -/
inductive Json where
  | null
  | bool (value : Bool)
  | int (value : Int)
  | binary (value : Binary64)
  | str (value : String)
  | arr (items : List Json)
  | obj (fields : List (String × Json))

namespace Json

instance : Inhabited Json := ⟨null⟩

def nat (n : Nat) : Json := int n

/-- An optional value; absence is `null`. -/
def option {α : Type} (f : α → Json) : Option α → Json
  | none => null
  | some a => f a

def list {α : Type} (f : α → Json) (xs : List α) : Json := arr (xs.map f)

/-- Writes a field into a list sorted by name; a later value replaces an earlier one. -/
def insertSorted (name : String) (value : Json) : List (String × Json) → List (String × Json)
  | [] => [(name, value)]
  | field :: rest =>
    if name < field.1 then (name, value) :: field :: rest
    else if name = field.1 then (name, value) :: rest
    else field :: insertSorted name value rest

mutual

/-- The value with the fields of every object sorted by name, the last of repeated ones kept. -/
def sorted : Json → Json
  | arr items => arr (sortedItems items)
  | obj fields => obj (sortedFields fields [])
  | value => value

def sortedItems : List Json → List Json
  | [] => []
  | item :: rest => sorted item :: sortedItems rest

/-- Enters fields, one after the other, into a list sorted by name. -/
def sortedFields : List (String × Json) → List (String × Json) → List (String × Json)
  | [], done => done
  | (name, value) :: rest, done => sortedFields rest (insertSorted name (sorted value) done)

end

end Json

end FlowFacts
