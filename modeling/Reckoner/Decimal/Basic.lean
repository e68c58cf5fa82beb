/-!
Decimal numbers: a sign, a coefficient and a power of ten, or one of the special forms. Two finite
decimals that denote the same number may differ in coefficient and exponent; `Decimal.compare`
looks through the representation.
-/

namespace Reckoner

inductive Form where
  | finite
  | infinite
  | nan
  | signaling
  deriving Repr, DecidableEq, Inhabited

/-- A number in decimal form. The sign of the number is `negative`; a coefficient below zero
comes only from a literal with a sign among its fraction digits, which keeps it there. -/
structure Decimal where
  form : Form := .finite
  negative : Bool := false
  coefficient : Int := 0
  exponent : Int := 0
  deriving Repr, DecidableEq, Inhabited

/-- The least `k` from the given start with `n < 10 ^ k`, as far as the fuel reaches. -/
def climbDigits (n : Nat) : (fuel start : Nat) → Nat
  | 0, k => k
  | fuel + 1, k => if n < Nat.pow 10 k then k else climbDigits n fuel (k + 1)

/-- The number of decimal digits of `n`, where zero has one. The binary logarithm gives a start
close to the answer. -/
def digitCount (n : Nat) : Nat :=
  let guess := n.log2 * 30102 / 100000
  climbDigits n (n.log2 + 1) (if Nat.pow 10 guess ≤ n then guess + 1 else 1)

namespace Decimal

def zero : Decimal := {}

def one : Decimal := { coefficient := 1 }

def infinity (negative : Bool) : Decimal := { form := .infinite, negative }

def notANumber : Decimal := { form := .nan }

def ofInt (n : Int) : Decimal := { negative := decide (n < 0), coefficient := n.natAbs }

def isFinite (d : Decimal) : Bool := d.form == .finite

def isZero (d : Decimal) : Bool := d.isFinite && d.coefficient == 0

def isNaN (d : Decimal) : Bool := d.form == .nan || d.form == .signaling

/-- Zero for a finite zero, otherwise the sign as `1` or `-1`, whatever the form. -/
def sign (d : Decimal) : Int :=
  if d.isZero then 0 else if d.negative then -1 else 1

def size (d : Decimal) : Nat := digitCount d.coefficient.natAbs

def adjusted (d : Decimal) : Int := d.exponent + d.size - 1

def integer? (d : Decimal) : Option Int :=
  if d.isFinite then
    let signed (n : Int) : Int := if d.negative then -n else n
    if 0 ≤ d.exponent then some (signed (d.coefficient * Nat.pow 10 d.exponent.toNat))
    else
      let unit : Int := Nat.pow 10 (-d.exponent).toNat
      if d.coefficient.tmod unit = 0 then some (signed (d.coefficient.tdiv unit)) else none
  else none

/-- Negation never produces a negative zero. -/
def negate (d : Decimal) : Decimal :=
  if d.isZero then { d with negative := false } else { d with negative := !d.negative }

def abs (d : Decimal) : Decimal := { d with negative := false }

def align (a b : Decimal) : Int × Int × Int :=
  if a.exponent ≤ b.exponent then
    (a.coefficient, b.coefficient * Nat.pow 10 (b.exponent - a.exponent).toNat, a.exponent)
  else
    (a.coefficient * Nat.pow 10 (a.exponent - b.exponent).toNat, b.coefficient, b.exponent)

/-- Compares two coefficients with exponents, signs aside. The leading digits decide first, so
that no coefficient is scaled needlessly. -/
def compareMagnitude (a b : Decimal) : Ordering :=
  if a.exponent = b.exponent then Ord.compare a.coefficient b.coefficient
  else
    match Ord.compare a.adjusted b.adjusted with
    | .eq =>
      let (x, y, _) := align a b
      Ord.compare x y
    | decided => decided

/-- Orders decimals by the number they denote; infinities lie outside all finite numbers, and a
form that is no number counts by its sign and coefficient. -/
def compare (a b : Decimal) : Ordering :=
  match Ord.compare a.sign b.sign with
  | .eq =>
    if a.sign = 0 then .eq
    else
      let magnitude :=
        match a.form == .infinite, b.form == .infinite with
        | true, true => .eq
        | true, false => .gt
        | false, true => .lt
        | false, false => compareMagnitude a b
      if a.sign < 0 then magnitude.swap else magnitude
  | decided => decided

def same (a b : Decimal) : Bool := a.compare b == .eq

end Decimal

end Reckoner
