/-!
# Readers

A `Reader α` takes a value of type `α` off the front of a text and returns the rest, or fails.
Choice is ordered: `p <|> q` tries `q` only when `p` fails, from the same place, and what one
alternative has read is never reconsidered later. Repetition is greedy.
-/

namespace FlowFacts

/-- Takes a value off the front of a text, or fails. -/
abbrev Reader (α : Type) : Type := StateT (List Char) Option α

namespace Reader

variable {α β : Type}

/-- What remains of a text after a word in front of it. -/
def dropWord : List Char → List Char → Option (List Char)
  | [], s => some s
  | _ :: _, [] => none
  | c :: w, d :: s => if c = d then dropWord w s else none

def word (w : String) : Reader Unit := fun s => (dropWord w.toList s).map fun rest => ((), rest)

def char (c : Char) : Reader Unit := fun
  | [] => none
  | d :: rest => if d = c then some ((), rest) else none

/-- Reads at least one character, as long as they satisfy `p`. -/
def span1 (p : Char → Bool) : Reader (List Char) := fun s =>
  match s.takeWhile p with
  | [] => none
  | cs => some (cs, s.dropWhile p)

/-- Reads nothing, and fails where `p` would succeed. -/
def notAhead (p : Reader α) : Reader Unit := fun s =>
  match p s with
  | some _ => none
  | none => some ((), s)

/-- Reads with `p` if it succeeds, and nothing otherwise. -/
def option (p : Reader α) : Reader (Option α) := fun s =>
  match p s with
  | some (a, rest) => some (some a, rest)
  | none => some (none, s)

/-- Reads with `p` until it fails, at most `bound` times. -/
def manyUpTo (p : Reader α) : Nat → Reader (List α)
  | 0, s => some ([], s)
  | bound + 1, s =>
    match p s with
    | none => some ([], s)
    | some (a, rest) => (manyUpTo p bound rest).map fun r => (a :: r.1, r.2)

/-- Reads with `p` until it fails. Each success of `p` takes a character, so the length of the
    text bounds their number. -/
def many (p : Reader α) : Reader (List α) := fun s => manyUpTo p s.length s

/-- Reads one or more items with `p`, with `sep` between them. -/
def sepBy1 (p : Reader α) (sep : Reader β) : Reader (List α) := do
  let first ← p
  let rest ← many (sep *> p)
  return first :: rest

/-- Reads nothing, at the end of the text only. -/
def atEnd : Reader Unit := fun
  | [] => some ((), [])
  | _ :: _ => none

/-- The value of a text that a reader takes up entirely. -/
def run? (p : Reader α) (text : String) : Option α := (p text.toList).bind fun
  | (a, []) => some a
  | _ => none

end Reader

end FlowFacts
