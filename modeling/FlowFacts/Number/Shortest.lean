import FlowFacts.Number.Numeral

/-!
# The shortest text of a binary number

Every real number between two halves of gaps rounds to the same binary number. Among the decimals
there, the text shows one with the fewest digits, and among those the nearest one. Numbers of
moderate size are written with a point inside or behind the digits, others with a power of ten.
-/

namespace FlowFacts

/-- The number `digits · 10 ^ exponent`. -/
structure Decimal where
  digits : Nat
  exponent : Int
deriving DecidableEq

namespace Decimal

/-- Moves trailing zeros of the digits into the exponent, at most `bound` of them. -/
def dropZeros : Nat → Decimal → Decimal
  | 0, d => d
  | bound + 1, d =>
    if d.digits % 10 = 0 then dropZeros bound ⟨d.digits / 10, d.exponent + 1⟩ else d

/-- The same number with as few digits as possible. -/
def normal (d : Decimal) : Decimal :=
  if d.digits = 0 then ⟨0, 0⟩ else dropZeros (Nat.log2 d.digits) d

end Decimal

namespace Binary64

/-- A power of ten as a quotient. -/
def tenRatio (e : Int) : Nat × Nat := (Nat.pow 10 e.toNat, Nat.pow 10 (-e).toNat)

/-- Whether a decimal rounds to the given magnitude. The ends of the interval, compared in quarters
    of units, belong to it if the magnitude is an even number of gaps. -/
def readsBack (units : Nat) (d : Decimal) : Bool :=
  let step := gap units
  let below := if 1 < step ∧ units = Nat.pow 2 (Nat.log2 units) then step else 2 * step
  let (num, den) := tenRatio d.exponent
  let here := 4 * one * d.digits * num
  let low := (4 * units - below) * den
  let high := (4 * units + 2 * step) * den
  if units / step % 2 = 0 then low ≤ here && here ≤ high else low < here && here < high

/-- The number of decimal places before the point, which is negative for zeros behind it. -/
def pointPlace (units : Nat) : Int :=
  (Nat.toDigits 10 (units * Nat.pow 10 340 / one)).length - 340

/-- A decimal with at most `count` digits that rounds to the magnitude: of the two nearest ones
    that do, the nearer, or else the even one. -/
def decimalWith? (units count : Nat) : Option Decimal :=
  let e := pointPlace units - count
  let (num, den) := tenRatio e
  let down : Decimal := ⟨units * den / (one * num), e⟩
  let up : Decimal := ⟨down.digits + 1, e⟩
  match readsBack units down, readsBack units up with
  | true, true =>
    let middle := (2 * down.digits + 1) * one * num
    if 2 * units * den < middle then some down
    else if middle < 2 * units * den then some up
    else some (if down.digits % 2 = 0 then down else up)
  | true, false => some down
  | false, true => some up
  | false, false => none

/-- The decimal with the fewest digits that rounds to the magnitude. Seventeen digits always do;
    the exact value stands in for completeness. -/
def shortest (units : Nat) : Decimal :=
  if units = 0 then ⟨0, 0⟩
  else
    (((List.range 17).findSome? fun n => decimalWith? units (n + 1)).getD
      ⟨units * Nat.pow 5 1074, -1074⟩).normal

/-- The smallest power of the leading digit that is written without an exponent. -/
def minPlainPower : Int := -5

/-- The largest power of the leading digit that is written without an exponent. -/
def maxPlainPower : Int := 15

/-- The number as it is written. -/
def numeral (x : Binary64) : Numeral :=
  let d := shortest x.units
  let digits := Nat.toDigits 10 d.digits
  let point : Int := digits.length + d.exponent
  let zeros (n : Int) : List Char := List.replicate n.toNat '0'
  if d.digits = 0 then ⟨x.negative, ['0'], ['0'], none⟩
  else if minPlainPower ≤ point - 1 ∧ point - 1 ≤ maxPlainPower then
    if 0 ≤ d.exponent then ⟨x.negative, digits ++ zeros d.exponent, ['0'], none⟩
    else if 0 < point then ⟨x.negative, digits.take point.toNat, digits.drop point.toNat, none⟩
    else ⟨x.negative, ['0'], zeros (-point) ++ digits, none⟩
  else ⟨x.negative, digits.take 1, digits.drop 1, some (point - 1)⟩

def text (x : Binary64) : String := x.numeral.text

end Binary64

end FlowFacts
