import Reckoner.Decimal.Arithmetic

/-!
Logarithms in fixed point: a real `x` is held as the integer nearest `x * unit`, where the unit is
a large power of ten. The series is cut off where its terms fall below one.
-/

namespace Reckoner.Fixed

/-- The sum of `z ^ k / k` over the odd `k` from `index` on; `power` holds the next odd power of
`z`. -/
def oddSeries (unit square : Int) : (fuel : Nat) → (power : Int) → (index : Nat) → Int
  | 0, _, _ => 0
  | fuel + 1, power, index =>
    if power = 0 then 0
    else power.tdiv index + oddSeries unit square fuel ((power * square).tdiv unit) (index + 2)

def artanh (digits : Nat) (n d : Int) : Int :=
  let unit : Int := Nat.pow 10 digits
  let z := (n * unit).tdiv d
  oddSeries unit ((z * z).tdiv unit) (4 * digits + 8) z 1

def logTwo (digits : Nat) : Int := 2 * artanh digits 1 3

def logTen (digits : Nat) : Int := 3 * logTwo digits + 2 * artanh digits 1 9

def normalize (n d : Nat) : (fuel doublings : Nat) → Nat × Nat
  | 0, k => (n, k)
  | fuel + 1, k => if 3 * n < 2 * d then normalize (2 * n) d fuel (k + 1) else (n, k)

def log (digits coefficient : Nat) (exponent : Int) : Int :=
  let size := digitCount coefficient
  let (n, doublings) := normalize coefficient (Nat.pow 10 size) 8 0
  let d := Nat.pow 10 size
  2 * artanh digits ((n : Int) - d) (n + d) - doublings * logTwo digits
    + (exponent + size) * logTen digits

end Reckoner.Fixed
