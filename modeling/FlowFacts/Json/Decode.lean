import FlowFacts.Json.Text

/-!
# Decoding JSON

Views of a JSON text as a number of some width, a list, a record or a choice. A record is an
object with the wanted fields, each at most once and other fields ignored, or a list of exactly
the wanted values. A choice without payload is its name, or an object with the name as the only
field and `null` as its value. What a view does not ask for is not looked at.
-/

namespace FlowFacts.JsonText

def int? : JsonText → Option Int
  | number x => x.int?
  | _ => none

/-- A natural number below `limit`. -/
def natBelow? (limit : Nat) (text : JsonText) : Option Nat := do
  let n ← text.int?
  if 0 ≤ n ∧ n < limit then some n.toNat else none

/-- A 32-bit number. -/
def word32? (text : JsonText) : Option UInt32 := (text.natBelow? UInt32.size).map UInt32.ofNat

/-- An index or a count: a natural number of 64 bits. -/
def index? (text : JsonText) : Option Nat := text.natBelow? UInt64.size

/-- A signed number of 64 bits. -/
def signed? (text : JsonText) : Option Int64 := do
  let n ← text.int?
  if Int64.minValue.toInt ≤ n ∧ n ≤ Int64.maxValue.toInt then some (Int64.ofInt n) else none

def bool? : JsonText → Option Bool
  | bool b => some b
  | _ => none

def str? : JsonText → Option String
  | str s => s.text?
  | _ => none

/-- A list whose items all decode. -/
def list? {α : Type} (f : JsonText → Option α) : JsonText → Option (List α)
  | arr xs => xs.mapM f
  | _ => none

/-- A value that may be `null`. -/
def nullable? {α : Type} (f : JsonText → Option α) : JsonText → Option (Option α)
  | null => some none
  | text => (f text).map some

/-- The names and values of an object's fields, if every name has a meaning. -/
def fields? : JsonText → Option (List (String × JsonText))
  | obj fields => fields.mapM fun field => do return (← field.1.text?, field.2)
  | _ => none

/-- The first of some fields with the given name. -/
def fieldNamed? (fields : List (String × JsonText)) (name : String) : Option JsonText :=
  (fields.find? fun field => field.1 = name).map Prod.snd

/-- The first field of an object with the given name. -/
def get? (text : JsonText) (name : String) : Option JsonText := do
  fieldNamed? (← text.fields?) name

/-- The values of the named fields of a record; a field may be absent from an object. -/
def record? (names : List String) : JsonText → Option (List (Option JsonText))
  | arr xs => if xs.length = names.length then some (xs.map some) else none
  | text => do
    let fields ← text.fields?
    if names.all fun name => fields.countP (fun field => field.1 = name) ≤ 1 then
      some (names.map (fieldNamed? fields))
    else none

/-- The name and the payload of a choice. -/
def choice? : JsonText → Option (String × Option JsonText)
  | str name => do return (← name.text?, none)
  | obj [(name, payload)] => do return (← name.text?, some payload)
  | _ => none

/-- A choice without payload, by its name. -/
def named? {α : Type} (f : String → Option α) (text : JsonText) : Option α :=
  match text.choice? with
  | some (name, none) => f name
  | some (name, some null) => f name
  | _ => none

end FlowFacts.JsonText
