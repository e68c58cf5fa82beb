import Reckoner.Decimal.Arithmetic

/-!
Integer powers by repeated squaring, rounded after every product.
-/

namespace Reckoner.Decimal

def lowBits : (count n : Nat) → List Bool
  | 0, _ => []
  | count + 1, n => (n % 2 == 1) :: lowBits count (n / 2)

/-- The binary digits of a number, least significant first, 64 at a time. Zero has none. -/
def bitsOf : (fuel n : Nat) → List Bool
  | 0, _ => []
  | fuel + 1, n =>
    let rest := n / 0x10000000000000000
    if n = 0 then []
    else if rest = 0 then lowBits (n.log2 + 1) n
    else lowBits 64 (n % 0x10000000000000000) ++ bitsOf fuel rest

/-- Multiplies the result by the powers of the base that the bits select. The base is not squared
after the last bit. -/
def powerLoop (r : Rounding) : List Bool → (base result : Decimal) →
    Except ArithmeticError Decimal
  | [], _, result => .ok result
  | bit :: rest, base, result => do
    let result ← if bit then mulFinite r result base else .ok result
    let base ← if rest.isEmpty then .ok base else mulFinite r base base
    powerLoop r rest base result

def integerPower (r : Rounding) (base : Decimal) (n : Int) : Except ArithmeticError Decimal := do
  let power ← powerLoop r (bitsOf (n.natAbs.log2 + 1) n.natAbs) base one
  if n < 0 then quoFinite r one power else .ok power

end Reckoner.Decimal
