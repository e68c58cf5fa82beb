import Reckoner.Decimal.Basic
import Reckoner.Text.Columns

/-!
Rounded decimal arithmetic. Results keep a fixed number of significant digits; an operation whose
exponents leave the permitted range fails instead of overflowing to an infinity.
-/

namespace Reckoner

inductive Tie where
  | toEven
  | up
  deriving Repr, DecidableEq, Inhabited

structure Rounding where
  digits : Nat
  tie : Tie
  deriving Repr, DecidableEq, Inhabited

inductive ArithmeticError where
  | divisionByZero
  | invalidOperation
  | divisionImpossible
  | exponentRange
  | sumRange
  | remainderRange
  | overflow
  | underflow
  | tooManyTerms
  | divergence (argument : String) (digits : Nat)
  deriving Repr, DecidableEq, Inhabited

def ArithmeticError.message : ArithmeticError → String
  | .divisionByZero => "Division by zero"
  | .invalidOperation => "invalid operation"
  | .divisionImpossible => "division impossible"
  | .exponentRange => "exponent out of range"
  | .sumRange => "add: exponent out of range"
  | .remainderRange => "Rem: exponent out of range"
  | .overflow => "overflow"
  | .underflow => "underflow, subnormal"
  | .tooManyTerms => "too many iterations"
  | .divergence argument digits =>
    "log " ++ argument ++ ": did not converge after " ++ Text.natural (digits + 10)
      ++ " iterations; prev,last result NaN,NaN delta NaN precision: " ++ Text.natural digits

def Tie.raises (tie : Tie) (quotient remainder divisor : Nat) : Bool :=
  match Ord.compare (2 * remainder) divisor with
  | .lt => false
  | .gt => true
  | .eq =>
    match tie with
    | .up => true
    | .toEven => quotient % 2 == 1

def Tie.divide (tie : Tie) (n d : Nat) : Nat :=
  if tie.raises (n / d) (n % d) d then n / d + 1 else n / d

/-- The quotient of a coefficient to the nearest integer. A coefficient below zero is cut. -/
def Tie.shorten (tie : Tie) (n : Int) (d : Nat) : Int :=
  if n < 0 then n.tdiv d else tie.divide n.toNat d

namespace Decimal

def precision : Nat := 28

/-- Script arithmetic: 28 digits, a half goes to the even neighbour. -/
def standard : Rounding := { digits := precision, tie := .toEven }

/-- The largest absolute exponent, of a part or of a leading digit. -/
def limit : Int := 100000

def withinLimit (e : Int) : Bool := -limit ≤ e && e ≤ limit

/-- Gives `d` the sum of `parts` as its exponent. Each part and the exponent of the leading digit
must lie within the limit. -/
def place (d : Decimal) (parts : List Int) : Except ArithmeticError Decimal :=
  let placed := { d with exponent := parts.foldl (· + ·) 0 }
  if parts.all withinLimit && withinLimit placed.adjusted then .ok placed
  else .error .exponentRange

/-- Drops `excess` digits. A carry out of the leading digit drops one more. -/
def dropDigits (tie : Tie) (digits : Nat) (coefficient : Int) (excess : Nat) : Int × Nat :=
  let kept := tie.shorten coefficient (Nat.pow 10 excess)
  if kept = Nat.pow 10 digits then (kept.tdiv 10, excess + 1) else (kept, excess)

/-- Rounds to the precision. A coefficient that fits is left as it is. -/
def round (r : Rounding) (d : Decimal) : Except ArithmeticError Decimal :=
  let count := d.size
  if d.coefficient ≠ 0 ∧ d.exponent + count - 1 < -limit then .error .exponentRange
  else if count ≤ r.digits then d.place [d.exponent, 0]
  else if limit < (count - r.digits : Nat) then .error .exponentRange
  else
    let (kept, dropped) := dropDigits r.tie r.digits d.coefficient (count - r.digits)
    place { d with coefficient := kept } [d.exponent, dropped]

/-- The answer of an operation with an operand that is no number, if there is one. A signaling
operand is an error, and the first plain one is passed on. -/
def withoutNumber? (a b : Decimal) : Option (Except ArithmeticError Decimal) :=
  if a.form == .signaling || b.form == .signaling then some (.error .invalidOperation)
  else if a.form == .nan then some (.ok a)
  else if b.form == .nan then some (.ok b)
  else none

/-- The sum of two signed coefficients; a difference of zero is positive. -/
def addSigned (xNegative : Bool) (x : Int) (yNegative : Bool) (y : Int) : Bool × Int :=
  if xNegative = yNegative then (xNegative, x + y)
  else if x = y then (false, 0)
  else if y < x then (xNegative, x - y)
  else (!xNegative, y - x)

def addFinite (r : Rounding) (a b : Decimal) : Except ArithmeticError Decimal :=
  if limit < (a.exponent - b.exponent).natAbs then .error .sumRange
  else
    let (x, y, e) := align a b
    let (negative, coefficient) := addSigned a.negative x b.negative y
    round r { negative, coefficient, exponent := e }

def subFinite (r : Rounding) (a b : Decimal) : Except ArithmeticError Decimal :=
  addFinite r a { b with negative := !b.negative }

def add (a b : Decimal) : Except ArithmeticError Decimal :=
  match withoutNumber? a b with
  | some answer => answer
  | none =>
    match a.form == .infinite, b.form == .infinite with
    | true, true => if a.negative = b.negative then .ok a else .error .invalidOperation
    | true, false => .ok a
    | false, true => .ok (infinity b.negative)
    | false, false => addFinite standard a b

/-- Subtraction adds the number of opposite sign. An operand that is no number keeps its sign. -/
def sub (a b : Decimal) : Except ArithmeticError Decimal :=
  add a (if b.isNaN then b else { b with negative := !b.negative })

def mulFinite (r : Rounding) (a b : Decimal) : Except ArithmeticError Decimal := do
  let product ← place
    { negative := a.negative != b.negative, coefficient := a.coefficient * b.coefficient }
    [a.exponent, b.exponent]
  round r product

def mul (a b : Decimal) : Except ArithmeticError Decimal :=
  match withoutNumber? a b with
  | some answer => answer
  | none =>
    if a.form == .infinite || b.form == .infinite then
      if a.isZero || b.isZero then .error .invalidOperation
      else .ok (infinity (a.negative != b.negative))
    else mulFinite standard a b

/-- Scales a dividend and a divisor so that the first digit of their quotient is its integer part.
The third component is the number of places the dividend moved up. -/
def alignQuotient (n d : Nat) : Nat × Nat × Int :=
  let shift : Int := (digitCount d : Int) - digitCount n
  let n := n * Nat.pow 10 shift.toNat
  let d := d * Nat.pow 10 (-shift).toNat
  if n < d then (n * 10, d, shift + 1) else (n, d, shift)

/-- The quotient of finite decimals with a nonzero divisor, by the magnitudes of the coefficients.
Every nonzero quotient has all digits of the precision, trailing zeros included. -/
def quoFinite (r : Rounding) (a b : Decimal) : Except ArithmeticError Decimal :=
  let negative := a.negative != b.negative
  let exponent := a.exponent - b.exponent
  if a.coefficient = 0 then place { negative } [exponent]
  else
    let (n, d, shift) := alignQuotient a.coefficient.natAbs b.coefficient.natAbs
    let more : Nat := r.digits - 1
    place { negative, coefficient := r.tie.divide (n * Nat.pow 10 more) d }
      [exponent, -shift, -more]

def quo (a b : Decimal) : Except ArithmeticError Decimal :=
  if b.isZero then .error .divisionByZero
  else
    match withoutNumber? a b with
    | some answer => answer
    | none =>
      let negative := a.negative != b.negative
      match a.form == .infinite, b.form == .infinite with
      | true, true => .error .invalidOperation
      | true, false => .ok (infinity negative)
      | false, true => .ok { negative, exponent := -limit - precision + 1 }
      | false, false => quoFinite standard a b

def remFinite (r : Rounding) (a b : Decimal) : Except ArithmeticError Decimal :=
  if limit < (a.exponent - b.exponent).natAbs then .error .remainderRange
  else
    let (x, y, e) := align a b
    if r.digits < digitCount (x.tdiv y).natAbs then .error .divisionImpossible
    else round r { negative := a.negative, coefficient := x.tmod y, exponent := e }

/-- The remainder of the quotient cut to an integer; it has the sign of the dividend. -/
def rem (a b : Decimal) : Except ArithmeticError Decimal :=
  if b.isZero then .error .divisionByZero
  else
    match withoutNumber? a b with
    | some answer => answer
    | none =>
      if a.form == .infinite then .error .invalidOperation
      else if b.form == .infinite then .ok a
      else remFinite standard a b

end Decimal

end Reckoner
