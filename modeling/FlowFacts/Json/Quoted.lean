import FlowFacts.Text.Reader

/-!
# Quoted strings

The characters between the quotes of a JSON string. When a text is written, the quote, the backslash
and control characters below U+0020 are escaped, and every other character stands for itself. When
it is read, any character may be escaped; one outside the first plane is escaped as a pair of code
units. Half a pair has no meaning.
-/

namespace FlowFacts

/-- The characters between the quotes of a string, as they are written. -/
structure Quoted where
  spelling : List Char
deriving DecidableEq

namespace Quoted

/-! ## Writing -/

/-- A hexadecimal digit, in lower case. -/
def hexDigit (n : Nat) : Char := Nat.digitChar n

/-- One character between quotes. -/
def escape (c : Char) : List Char :=
  if c = '"' then ['\\', '"']
  else if c = '\\' then ['\\', '\\']
  else if c = '\x08' then ['\\', 'b']
  else if c = '\x0c' then ['\\', 'f']
  else if c = '\n' then ['\\', 'n']
  else if c = '\r' then ['\\', 'r']
  else if c = '\t' then ['\\', 't']
  else if c.toNat < 0x20 then
    ['\\', 'u', '0', '0', hexDigit (c.toNat / 16), hexDigit (c.toNat % 16)]
  else [c]

/-- A text between quotes. -/
def ofText (text : String) : Quoted := ⟨text.toList.flatMap escape⟩

/-! ## Reading -/

/-- The value of a hexadecimal digit. -/
def hexValue? (c : Char) : Option Nat :=
  if '0' ≤ c ∧ c ≤ '9' then some (c.toNat - '0'.toNat)
  else if 'a' ≤ c ∧ c ≤ 'f' then some (c.toNat - 'a'.toNat + 10)
  else if 'A' ≤ c ∧ c ≤ 'F' then some (c.toNat - 'A'.toNat + 10)
  else none

/-- The code unit that four hexadecimal digits denote. -/
def unit? (a b c d : Char) : Option Nat := do
  let a ← hexValue? a
  let b ← hexValue? b
  let c ← hexValue? c
  let d ← hexValue? d
  return ((a * 16 + b) * 16 + c) * 16 + d

/-- Whether a code unit is the first half of a pair. -/
def isLeading (unit : Nat) : Bool := 0xD800 ≤ unit && unit < 0xDC00

/-- Whether a code unit is the second half of a pair. -/
def isTrailing (unit : Nat) : Bool := 0xDC00 ≤ unit && unit < 0xE000

/-- The character that a letter behind a backslash stands for. -/
def unescape? (c : Char) : Option Char :=
  match c with
  | '"' => some '"'
  | '\\' => some '\\'
  | '/' => some '/'
  | 'b' => some '\x08'
  | 'f' => some '\x0c'
  | 'n' => some '\n'
  | 'r' => some '\r'
  | 't' => some '\t'
  | _ => none

/-- The character that a pair of code units denotes. -/
def ofPair (leading trailing : Nat) : Char :=
  Char.ofNat (0x10000 + (leading - 0xD800) * 0x400 + (trailing - 0xDC00))

/-- The characters that a spelling denotes; `done` holds those in front of it, last one first. -/
def decode? (done : List Char) : List Char → Option (List Char)
  | [] => some done.reverse
  | '\\' :: 'u' :: a :: b :: c :: d :: rest =>
    match unit? a b c d with
    | none => none
    | some unit =>
      if isLeading unit then
        match rest with
        | '\\' :: 'u' :: a :: b :: c :: d :: rest =>
          match unit? a b c d with
          | none => none
          | some second =>
            if isTrailing second then decode? (ofPair unit second :: done) rest else none
        | _ => none
      else if isTrailing unit then none
      else decode? (Char.ofNat unit :: done) rest
  | '\\' :: c :: rest =>
    match unescape? c with
    | none => none
    | some c => decode? (c :: done) rest
  | c :: rest => decode? (c :: done) rest

/-- The text that the characters denote, unless half a pair stands alone. -/
def text? (s : Quoted) : Option String := (decode? [] s.spelling).map String.ofList

/-! ## Extent -/

/-- Splits off the characters up to the closing quote; `done` holds those passed, last one first.
    An escape has to be complete, and control characters have to be escaped. -/
def scan (done : List Char) : List Char → Option (List Char × List Char)
  | '"' :: rest => some (done.reverse, rest)
  | '\\' :: 'u' :: a :: b :: c :: d :: rest =>
    if (unit? a b c d).isSome then scan (d :: c :: b :: a :: 'u' :: '\\' :: done) rest else none
  | '\\' :: c :: rest => if (unescape? c).isSome then scan (c :: '\\' :: done) rest else none
  | c :: rest => if c.toNat < 0x20 then none else scan (c :: done) rest
  | [] => none

/-- Reads a string with its quotes. -/
def read : Reader Quoted := do
  Reader.char '"'
  let spelling ← scan []
  return ⟨spelling⟩

end Quoted

end FlowFacts
