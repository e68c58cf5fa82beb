import Reckoner.Decimal.Display
import Reckoner.Decimal.Exponential

/-!
The natural logarithm to a given precision. Next to one it is summed as a series. Elsewhere the
argument is brought between a tenth and one by a power of ten, and an iteration inverts the
exponential there.
-/

namespace Reckoner.Decimal

/-- The logarithm of ten. The digits are rounded up to a power of two. -/
def logTen (digits : Nat) : Decimal :=
  let kept := Nat.pow 2 ((digits - 1).log2 + 1)
  { coefficient := Tie.up.divide (Fixed.logTen (kept + 10)).toNat 100000000000,
    exponent := 1 - (kept : Int) }

/-- Adds twice the odd powers of `z` from the `n`th on, each over its index, until a term falls
below the precision. The argument `power` is twice the power before. -/
def oddPowers (r : Rounding) (z : Decimal) : (fuel n : Nat) → (power sum : Decimal) →
    Except ArithmeticError Decimal
  | 0, _, _, sum => .ok sum
  | fuel + 1, n, power, sum => do
    let power ← mulFinite r (← mulFinite r power z) z
    let term ← quoFinite r power (ofInt (2 * n + 1))
    let sum ← addFinite r sum term
    if term.abs.compare { coefficient := 1, exponent := -(r.digits : Int) } == .gt then
      oddPowers r z fuel (n + 1) power sum
    else .ok sum

def logNearOne (r : Rounding) (offset : Decimal) : Except ArithmeticError Decimal := do
  let divisor ← addFinite r offset (ofInt 2)
  let z ← quoFinite r offset divisor
  let double ← addFinite r z z
  oddPowers r z r.digits 1 double double

def isNearOne (offset : Decimal) : Bool :=
  offset.abs.compare { coefficient := 1, exponent := -1 } != .gt

def logEstimate (x : Decimal) : Decimal :=
  let n := Fixed.log 24 x.coefficient.natAbs x.exponent
  { negative := decide (n < 0), coefficient := Tie.toEven.divide n.natAbs 10000000,
    exponent := -17 }

/-- The next value of an iteration for the logarithm of `z`: with `e` the exponential of the last
value, `2 (e - z) / (e + z)` is taken off. -/
def refineLog (r : Rounding) (z guess : Decimal) : Except ArithmeticError Decimal := do
  let e ← exp r guess
  let difference ← subFinite r e z
  let double ← addFinite r difference difference
  let sum ← addFinite r e z
  subFinite r guess (← quoFinite r double sum)

/-- Whether two values of an iteration agree to the given digits of the second. -/
def settled (r : Rounding) (digits : Nat) (previous value : Decimal) :
    Except ArithmeticError Bool := do
  let change ← subFinite r previous value
  let least : Decimal := { coefficient := 1, exponent := value.exponent + value.size - digits }
  return change.coefficient == 0 || change.abs.compare least != .gt

def logLoop (r : Rounding) (digits : Nat) (z : Decimal) : (fuel : Nat) →
    (previous guess : Decimal) → Except ArithmeticError Decimal
  | 0, _, _ => .error (.divergence z.scientific digits)
  | fuel + 1, previous, guess => do
    let value ← refineLog r z guess
    if ← settled r digits previous value then .ok value else logLoop r digits z fuel value value

/-- The natural logarithm of a finite decimal above zero. With a coefficient below zero there is no
estimate to start from. -/
def ln (r : Rounding) (x : Decimal) : Except ArithmeticError Decimal := do
  let work : Rounding := ⟨r.digits + 2, .toEven⟩
  if x.same one then .ok zero
  else
    let offset ← subFinite work x one
    if isNearOne offset then round r (← logNearOne work offset)
    else
      let z := { x with exponent := -(x.size : Int) }
      let added ← mulFinite work (ofInt (x.exponent + x.size)) (logTen work.digits)
      let offset ← subFinite work z one
      let logarithm ←
        if isNearOne offset then logNearOne work offset
        else if x.coefficient < 0 then .error (.divergence x.scientific (r.digits + 1))
        else logLoop work (r.digits + 1) z (r.digits + 11) zero (logEstimate z)
      round r (← addFinite work logarithm added)

end Reckoner.Decimal
