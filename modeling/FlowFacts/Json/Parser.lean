import FlowFacts.Json.Text

/-!
# Reading JSON

The tree of a JSON text. Whether its strings and numbers have a meaning is not asked here.
-/

namespace FlowFacts.JsonText

/-- Whether a character may stand between tokens. -/
def isSpace (c : Char) : Bool := c = ' ' || c = '\t' || c = '\n' || c = '\r'

/-- Passes over blanks. -/
def space : Reader Unit := fun s => some ((), s.dropWhile isSpace)

/-! ## Numbers -/

/-- Reads the digits before the point: a zero, or digits that do not start with one. -/
def wholeDigits : Reader (List Char) := fun
  | '0' :: rest => some (['0'], rest)
  | s => Reader.span1 Char.isDigit s

/-- Reads the digits behind the point, if there is one. -/
def fractionDigits : Reader (List Char) := fun
  | '.' :: rest => Reader.span1 Char.isDigit rest
  | s => some ([], s)

/-- Reads a power of ten behind its letter. -/
def power : Reader Int := do
  let negative ← (Reader.char '-' *> pure true) <|> (Reader.char '+' *> pure false) <|> pure false
  let ds ← Reader.span1 Char.isDigit
  let n := Numeral.digitsValue ds
  return if negative then -n else n

/-- Reads the power of ten, if there is one. -/
def exponent : Reader (Option Int) := fun
  | 'e' :: rest => (power rest).map fun r => (some r.1, r.2)
  | 'E' :: rest => (power rest).map fun r => (some r.1, r.2)
  | s => some (none, s)

def numeral : Reader Numeral := do
  let sign ← Reader.option (Reader.char '-')
  let whole ← wholeDigits
  let fraction ← fractionDigits
  let exponent ← exponent
  return { negative := sign.isSome, whole, fraction, exponent }

/-! ## Values -/

/-- Reads `null`, a truth value, a string or a number. -/
def scalar : Reader JsonText :=
  (Reader.word "null" *> pure null) <|> (Reader.word "true" *> pure (bool true)) <|>
    (Reader.word "false" *> pure (bool false)) <|> (str <$> Quoted.read) <|> (number <$> numeral)

/-- Reads the items after the first one, each after a comma, and the closing character. The bound
    limits the number of items. -/
def itemsTail {α : Type} (close : Char) (item : Reader α) : Nat → Reader (List α)
  | 0, _ => none
  | bound + 1, s =>
    match s.dropWhile isSpace with
    | [] => none
    | c :: rest =>
      if c = close then some ([], rest)
      else if c = ',' then
        match item rest with
        | none => none
        | some (a, rest) => (itemsTail close item bound rest).map fun r => (a :: r.1, r.2)
      else none

/-- Reads items separated by commas up to the closing character. -/
def items {α : Type} (close : Char) (item : Reader α) (bound : Nat) : Reader (List α) := fun s =>
  match s.dropWhile isSpace with
  | [] => none
  | c :: rest =>
    if c = close then some ([], rest)
    else
      match item (c :: rest) with
      | none => none
      | some (a, rest) => (itemsTail close item bound rest).map fun r => (a :: r.1, r.2)

/-- Reads a field: a name, a colon and a value. -/
def field (value : Reader JsonText) : Reader (Quoted × JsonText) := do
  space
  let name ← Quoted.read
  space
  Reader.char ':'
  let v ← value
  return (name, v)

/-- Reads a text whose lists and objects nest at most `bound` deep and have at most as many items.
    The length of the text is such a bound, since every level and every item takes a character. -/
def read : Nat → Reader JsonText
  | 0 => space *> scalar
  | bound + 1 =>
    space *> ((arr <$> (Reader.char '[' *> items ']' (read bound) bound)) <|>
      (obj <$> (Reader.char '\x7b' *> items '\x7d' (field (read bound)) bound)) <|> scalar)

/-- The tree of a text; blanks around it are allowed. -/
def parse? (text : String) : Option JsonText := Reader.run? (read text.length <* space) text

end FlowFacts.JsonText
