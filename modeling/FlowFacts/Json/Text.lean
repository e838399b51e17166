import FlowFacts.Json.Basic
import FlowFacts.Json.Quoted

/-!
# Written JSON

A JSON text as a tree whose strings and numbers keep their spelling. A text may hold more than a
value can mean: half a surrogate pair, or a number that is too large. What is never looked at need
not have a meaning.
-/

namespace FlowFacts

/-- A JSON text. -/
inductive JsonText where
  | null
  | bool (value : Bool)
  | number (spelling : Numeral)
  | str (spelling : Quoted)
  | arr (items : List JsonText)
  | obj (fields : List (Quoted × JsonText))

namespace JsonText

instance : Inhabited JsonText := ⟨null⟩

/-- How deep the lists and objects around a value may nest, its own included. -/
def maxDepth : Nat := 127

/-- The value of a number. -/
def numberValue? (x : Numeral) : Option Json :=
  match x.int? with
  | some n => some (.int n)
  | none => x.binary?.map .binary

mutual

/-- The value that a text denotes, if its lists and objects nest at most `depth` deep. -/
def value? (depth : Nat) : JsonText → Option Json
  | null => some .null
  | bool b => some (.bool b)
  | number x => numberValue? x
  | str s => s.text?.map .str
  | arr items => if depth = 0 then none else (itemValues? (depth - 1) items).map .arr
  | obj fields => if depth = 0 then none else (fieldValues? (depth - 1) fields).map .obj

def itemValues? (depth : Nat) : List JsonText → Option (List Json)
  | [] => some []
  | item :: rest => do return (← value? depth item) :: (← itemValues? depth rest)

def fieldValues? (depth : Nat) : List (Quoted × JsonText) → Option (List (String × Json))
  | [] => some []
  | (name, item) :: rest => do
    return (← name.text?, ← value? depth item) :: (← fieldValues? depth rest)

end

mutual

/-- The text that a value is written as. -/
def ofJson : Json → JsonText
  | .null => null
  | .bool b => bool b
  | .int n => number (.ofInt n)
  | .binary x => number x.numeral
  | .str s => str (.ofText s)
  | .arr items => arr (ofItems items)
  | .obj fields => obj (ofFields fields)

def ofItems : List Json → List JsonText
  | [] => []
  | item :: rest => ofJson item :: ofItems rest

def ofFields : List (String × Json) → List (Quoted × JsonText)
  | [] => []
  | (name, value) :: rest => (.ofText name, ofJson value) :: ofFields rest

end

end JsonText

end FlowFacts
