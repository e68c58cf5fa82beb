import Reckoner.Decimal.Logarithm

/-!
Powers. The integer part of an exponent is handled by repeated squaring with ten digits to spare,
a fractional part by the exponential of a multiple of the logarithm.
-/

namespace Reckoner.Decimal

def split (d : Decimal) : Int × Nat × Int :=
  if !d.isFinite then (0, 0, 0)
  else if 0 < d.exponent then (d.coefficient, d.exponent.toNat, 0)
  else
    let unit : Int := Nat.pow 10 (-d.exponent).toNat
    (d.coefficient.tdiv unit, 0, d.coefficient.tmod unit)

def powerFinite (a b : Decimal) : Except ArithmeticError Decimal := do
  let (whole, scale, fraction) := b.split
  let work : Rounding := { digits := max precision a.size + 10, tie := .up }
  let n := whole * Nat.pow 10 scale
  let power ← integerPower work a (if b.negative then -n else n)
  if fraction = 0 then round standard power
  else
    let logarithm ← ln work (← round work a.abs)
    let product ← mulFinite work logarithm { b with coefficient := fraction }
    round standard (← mulFinite work power (← exp work product))

/-- The number `a` raised to `b`. Only an odd integer exponent keeps a negative sign. -/
def pow (a b : Decimal) : Except ArithmeticError Decimal :=
  match withoutNumber? a b with
  | some answer => answer
  | none =>
    let (whole, scale, fraction) := b.split
    let negative := a.negative && b.isFinite && fraction == 0 && whole.natAbs % 2 == 1 && scale == 0
    let fractional := fraction != 0
    if a.form == .infinite then
      if b.isZero then .ok one
      else if a.negative && (b.form == .infinite || fractional) then .error .invalidOperation
      else if b.negative then .ok { negative }
      else .ok (infinity negative)
    else if a.isZero then
      if b.isZero then .error .invalidOperation
      else if b.negative then .ok (infinity negative)
      else .ok { negative }
    else if b.isZero then .ok one
    else if a.negative && fractional then .error .invalidOperation
    else powerFinite a b

end Reckoner.Decimal
