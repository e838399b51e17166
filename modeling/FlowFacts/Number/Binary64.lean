/-!
# Binary floating-point numbers

Numbers of double precision. The magnitude is a natural number of units of `2⁻¹⁰⁷⁴`, the smallest
positive one, so every operation is an exact quotient of natural numbers, rounded once to a number
of at most 53 significant bits. Halves go to the even neighbour.
-/

namespace FlowFacts

/-- The number `± units · 2⁻¹⁰⁷⁴`. Zero may carry a minus sign too. -/
structure Binary64 where
  negative : Bool
  units : Nat
deriving DecidableEq

namespace Binary64

/-- How many significant bits a number has. -/
def precision : Nat := 53

/-- How many units are one. -/
def one : Nat := Nat.pow 2 1074

/-- The largest magnitude. -/
def maxUnits : Nat := (Nat.pow 2 precision - 1) * Nat.pow 2 2045

/-- The natural number nearest to `num / den`; a half goes to the even one. -/
def nearest (num den : Nat) : Nat :=
  let q := num / den
  let twice := 2 * (num % den)
  if twice < den then q
  else if den < twice then q + 1
  else q + q % 2

/-- The distance from a magnitude to the next one above it. -/
def gap (units : Nat) : Nat := Nat.pow 2 (Nat.log2 units + 1 - precision)

/-- The magnitude nearest to `num / den` units, without a bound on its size. -/
def round (num den : Nat) : Nat :=
  let step := gap (num / den)
  nearest num (den * step) * step

/-- The magnitude nearest to a natural number. -/
def ofNat (n : Nat) : Nat := round (n * one) 1

def mul (a b : Nat) : Nat := round (a * b) one

def div (a b : Nat) : Nat := round (a * one) b

/-- The magnitude, unless it is too large. -/
def finite? (units : Nat) : Option Nat := if units ≤ maxUnits then some units else none

/-- The largest power of ten that is a magnitude. -/
def maxPower : Nat := 308

/-- The magnitude nearest to a power of ten. -/
def tenPower (n : Nat) : Nat := ofNat (Nat.pow 10 n)

/-- Divides by the largest power of ten the given number of times, or until nothing is left. -/
def shrink : Nat → Nat → Nat
  | 0, units => units
  | times + 1, units => if units = 0 then 0 else shrink times (div units (tenPower maxPower))

/-- The magnitude `n · 10 ^ exponent`. The number `n`, the power of ten and the result are each
    rounded; a power of ten that is too small is taken in several steps. There is none if the result
    is too large. -/
def scaled? (n : Nat) (exponent : Int) : Option Nat :=
  let units := ofNat n
  if units = 0 then some 0
  else if maxPower < exponent then none
  else if 0 ≤ exponent then finite? (mul units (tenPower exponent.toNat))
  else
    let power := (-exponent).toNat
    let times := (power - 1) / maxPower
    some (div (shrink times units) (tenPower (power - times * maxPower)))

end Binary64

end FlowFacts
