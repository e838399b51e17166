import FlowFacts.Json.Basic
import FlowFacts.Json.Quoted

/-!
# Writing JSON

`Json.compact` writes a value without blanks, `Json.pretty` with one item or field a line and
two blanks a level.
-/

namespace FlowFacts.Json

/-- A string with its quotes. -/
def quote (s : String) : String := "\"" ++ String.ofList (Quoted.ofText s).spelling ++ "\""

mutual

/-- The value without blanks. -/
def compact : Json → String
  | null => "null"
  | bool true => "true"
  | bool false => "false"
  | int n => toString n
  | binary x => x.text
  | str s => quote s
  | arr items => "[" ++ compactItems items ++ "]"
  | obj fields => "\x7b" ++ compactFields fields ++ "\x7d"

/-- Items with commas between them. -/
def compactItems : List Json → String
  | [] => ""
  | [item] => compact item
  | item :: rest => compact item ++ "," ++ compactItems rest

/-- Fields with commas between them. -/
def compactFields : List (String × Json) → String
  | [] => ""
  | [(name, value)] => quote name ++ ":" ++ compact value
  | (name, value) :: rest => quote name ++ ":" ++ compact value ++ "," ++ compactFields rest

end

/-- A new line at the given level. -/
def newline (level : Nat) : String := "\n" ++ String.ofList (List.replicate (2 * level) ' ')

mutual

/-- The value over several lines, inside `level` enclosing lists and objects. -/
def prettyAt (level : Nat) : Json → String
  | null => "null"
  | bool true => "true"
  | bool false => "false"
  | int n => toString n
  | binary x => x.text
  | str s => quote s
  | arr [] => "[]"
  | arr (item :: rest) =>
    "[" ++ newline (level + 1) ++ prettyItems (level + 1) (item :: rest) ++ newline level ++ "]"
  | obj [] => "\x7b\x7d"
  | obj (field :: rest) =>
    "\x7b" ++ newline (level + 1) ++ prettyFields (level + 1) (field :: rest) ++ newline level ++
      "\x7d"

/-- Items, one a line. -/
def prettyItems (level : Nat) : List Json → String
  | [] => ""
  | [item] => prettyAt level item
  | item :: rest => prettyAt level item ++ "," ++ newline level ++ prettyItems level rest

/-- Fields, one a line. -/
def prettyFields (level : Nat) : List (String × Json) → String
  | [] => ""
  | [(name, value)] => quote name ++ ": " ++ prettyAt level value
  | (name, value) :: rest =>
    quote name ++ ": " ++ prettyAt level value ++ "," ++ newline level ++ prettyFields level rest

end

/-- The value over several lines. -/
def pretty (value : Json) : String := prettyAt 0 value

end FlowFacts.Json
