import FlowFacts.Number.Binary64

/-!
# Written numbers

A number as it is written: a sign, digits, digits behind a point, and a power of ten. Without point
and power it denotes an integer, as long as it fits into 64 bits, signed or unsigned. Every other
number denotes a binary one.
-/

namespace FlowFacts

/-- The parts of a written number: its sign, the digits before and behind the point, and the power
    of ten. Without digits behind it there is no point. -/
structure Numeral where
  negative : Bool
  whole : List Char
  fraction : List Char := []
  exponent : Option Int := none
deriving DecidableEq

namespace Numeral

/-- The number that a run of digits denotes. -/
def digitsValue (ds : List Char) : Nat := Nat.ofDigitChars 10 ds 0

/-- An integer in decimal. -/
def ofInt (n : Int) : Numeral where
  negative := n < 0
  whole := Nat.toDigits 10 n.natAbs

/-- The text of a number; a power of ten always has a sign. -/
def text (x : Numeral) : String :=
  (if x.negative then "-" else "") ++ String.ofList x.whole ++
    (if x.fraction.isEmpty then "" else "." ++ String.ofList x.fraction) ++
    match x.exponent with
    | none => ""
    | some e => (if e < 0 then "e-" else "e+") ++ toString e.natAbs

/-- The integer that a number denotes. Zero with a sign is not an integer. -/
def int? (x : Numeral) : Option Int :=
  let n := digitsValue x.whole
  if !x.fraction.isEmpty || x.exponent.isSome then none
  else if x.negative then
    if 0 < n ∧ n ≤ UInt64.size / 2 then some (-n) else none
  else if n < UInt64.size then some n
  else none

/-- Appends digits to a number as long as it fits into 64 bits, and returns those left over. -/
def gather (n : Nat) : List Char → Nat × List Char
  | [] => (n, [])
  | c :: rest =>
    let next := n * 10 + digitsValue [c]
    if next < UInt64.size then gather next rest else (n, c :: rest)

/-- The binary number that a number denotes. Leading digits count as far as they fit into 64 bits;
    those of the whole part that are left over still count as places. There is none if the number is
    too large. -/
def binary? (x : Numeral) : Option Binary64 :=
  let (n, wholeLeft) := gather 0 x.whole
  let (n, fractionLeft) := gather n x.fraction
  let places : Int := wholeLeft.length + fractionLeft.length - x.fraction.length
  (Binary64.scaled? n (places + x.exponent.getD 0)).map (Binary64.mk x.negative)

end Numeral

end FlowFacts
