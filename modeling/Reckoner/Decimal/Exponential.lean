import Reckoner.Decimal.FixedPoint
import Reckoner.Decimal.IntegerPower

/-!
The exponential to a given precision. The argument is divided by a power of ten that takes it below
one, the series is summed there with digits to spare, and the sum is raised to that power of ten.
-/

namespace Reckoner.Decimal

def reachPerDigit : Nat := 23

def digitCeiling : Nat := 1000

def ceilingQuotient (n d : Nat) : Nat := (n + d - 1) / d

def exponentialDigits (digits : Nat) (x : Decimal) : Nat :=
  let raised := 0 < x.coefficient
    && x.abs.compare (ofInt (reachPerDigit * digits)) == .gt
    && x.abs.compare (ofInt (reachPerDigit * digitCeiling)) == .lt
  if raised then
    ceilingQuotient (x.coefficient.natAbs * Nat.pow 10 x.exponent.toNat)
      (reachPerDigit * Nat.pow 10 (-x.exponent).toNat)
  else digits

/-- How many terms of the series give the digits of the exponential of `x`, which lies strictly
between zero and one. The estimate is a quotient of the digits by the logarithm of `digits / x`.
Next to nothing needs no terms. -/
def termCount (digits : Nat) (x : Decimal) : Nat :=
  if x.adjusted < -324 then 0
  else
    let places := 30
    let ratio := Fixed.log places digits 0 - Fixed.log places x.coefficient.natAbs x.exponent
    ceilingQuotient ((1435 * digits - 1182) * (Fixed.logTen places).toNat) (1000 * ratio.toNat)

def termLimit : Nat := 1000

/-- The series of the exponential from the given term inwards: the sum so far is multiplied by
`x / n` and increased by one. -/
def expSeries (r : Rounding) (x : Decimal) : Nat → (sum : Decimal) →
    Except ArithmeticError Decimal
  | 0, sum => .ok sum
  | n + 1, sum => do
    let factor ← quoFinite r x (ofInt (n + 1))
    let product ← mulFinite r factor sum
    expSeries r x n (← addFinite r product one)

def exp (r : Rounding) (x : Decimal) : Except ArithmeticError Decimal := do
  let digits := exponentialDigits r.digits x
  if x.coefficient = 0 then .ok one
  else if x.abs.compare (ofInt (reachPerDigit * digits)) == .gt then
    .error (if x.negative then .underflow else .overflow)
  else if x.abs.compare { coefficient := 9, exponent := -(digits : Int) - 1 } != .gt then .ok one
  else
    let scale := (x.exponent + x.size).toNat
    let small ← quoFinite ⟨digits, .toEven⟩ x { coefficient := 1, exponent := scale }
    let work : Rounding := ⟨digits + scale + 2, .toEven⟩
    let terms := termCount work.digits small
    if termLimit < terms then .error .tooManyTerms
    else
      let sum ← expSeries work small (terms - 1) one
      let power ← integerPower work sum (Nat.pow 10 scale)
      round ⟨r.digits, .toEven⟩ power

end Reckoner.Decimal
