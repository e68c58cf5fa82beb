import Reckoner.Decimal.Display
import Reckoner.Decimal.Literal

/-!
Binary floating point of 64 bits, seen through its bit pattern. A finite pattern denotes
`mantissa * 2 ^ scale`; reading a decimal takes the nearest pattern, and writing one takes the
fewest digits that read back.
-/

namespace Reckoner

structure Binary where
  negative : Bool
  biased : Nat
  fraction : Nat
  deriving Repr, DecidableEq, Inhabited

namespace Binary

def ofBits (bits : UInt64) : Binary where
  negative := bits >>> 63 == 1
  biased := ((bits >>> 52) &&& 0x7ff).toNat
  fraction := (bits &&& 0xfffffffffffff).toNat

def toBits (b : Binary) : UInt64 :=
  ((if b.negative then 1 else 0) <<< 63 ||| (b.biased <<< 52) ||| b.fraction : Nat).toUInt64

def isNaN (b : Binary) : Bool := b.biased == 0x7ff && b.fraction != 0

def isInfinite (b : Binary) : Bool := b.biased == 0x7ff && b.fraction == 0

def hiddenBit : Nat := 0x10000000000000

/-- The leading bit is implicit except in the lowest binade. -/
def mantissa (b : Binary) : Nat := if b.biased = 0 then b.fraction else hiddenBit + b.fraction

def scale (b : Binary) : Int := (max b.biased 1 : Nat) - 1075

def quotient (b : Binary) : Nat × Nat :=
  (b.mantissa * Nat.pow 2 b.scale.toNat, Nat.pow 2 (-b.scale).toNat)

def infinity (negative : Bool) : Binary := { negative, biased := 0x7ff, fraction := 0 }

def ofMantissa (negative : Bool) (m : Nat) (q : Int) : Binary :=
  if m < hiddenBit then { negative, biased := 0, fraction := m }
  else { negative, biased := (q + 1075).toNat, fraction := m - hiddenBit }

def leadingBit (n d : Nat) : Int :=
  let guess : Int := (n.log2 : Int) - d.log2
  if n * Nat.pow 2 (-guess).toNat < d * Nat.pow 2 guess.toNat then guess - 1 else guess

/-- The pattern nearest to `n / d`, a tie going to the even mantissa; none beyond the range. -/
def nearest? (negative : Bool) (n d : Nat) : Option Binary :=
  if n = 0 then some { negative, biased := 0, fraction := 0 }
  else
    let q := max (leadingBit n d - 52) (-1074)
    let m := Tie.toEven.divide (n * Nat.pow 2 (-q).toNat) (d * Nat.pow 2 q.toNat)
    let (m, q) := if m = 2 * hiddenBit then (hiddenBit, q + 1) else (m, q)
    if 971 < q then none else some (ofMantissa negative m q)

/-- The nearest pattern with the precision and range of 32 bits, a tie going to the even one.
Numbers beyond the range become infinite. -/
def toSingle (b : Binary) : Binary :=
  let (n, d) := b.quotient
  if b.biased = 0x7ff ∨ n = 0 then b
  else
    let q := max (leadingBit n d - 23) (-149)
    let m := Tie.toEven.divide (n * Nat.pow 2 (-q).toNat) (d * Nat.pow 2 q.toNat)
    if 0x100000000000000000000000000000000 ≤ m * Nat.pow 2 q.toNat then infinity b.negative
    else
      (nearest? b.negative (m * Nat.pow 2 q.toNat) (Nat.pow 2 (-q).toNat)).getD
        (infinity b.negative)

def leadingDigit (n d : Nat) : Int :=
  if d ≤ n then digitCount (n / d) - 1 else -digitCount ((d + n - 1) / n - 1)

def between (closed : Bool) (low high d c : Nat) (s : Int) : Bool :=
  let x := c * Nat.pow 10 s.toNat * d
  let unit := Nat.pow 10 (-s).toNat
  if closed then low * unit ≤ x && x ≤ high * unit else low * unit < x && x < high * unit

/-- Tries one digit more at a time: of the neighbours of `n / d` on the grid of `count` digits,
the nearer one that reads back. -/
def shortestFrom (closed : Bool) (low n high d : Nat) (top : Int) : (fuel count : Nat) → Nat × Int
  | 0, _ => (n / d, 0)
  | fuel + 1, count =>
    let s := top - count + 1
    let below := n * Nat.pow 10 (-s).toNat / (d * Nat.pow 10 s.toNat)
    let lower := between closed low high d below s
    let upper := between closed low high d (below + 1) s
    let twice := 2 * n * Nat.pow 10 (-s).toNat
    let middle := (2 * below + 1) * Nat.pow 10 s.toNat * d
    if lower && (!upper || twice ≤ middle) then (below, s)
    else if upper then (below + 1, s)
    else shortestFrom closed low n high d top fuel (count + 1)

/-- The fewest decimal digits that read back as a finite nonzero pattern, as a coefficient and an
exponent. The interval that rounds to the pattern is narrower below a power of two. -/
def shortest (b : Binary) : Nat × Int :=
  let (n, d) := b.quotient
  let unit := Nat.pow 2 b.scale.toNat
  let below := if b.fraction = 0 ∧ 1 < b.biased then unit else 2 * unit
  shortestFrom (b.mantissa % 2 == 0) (4 * n - below) (4 * n) (4 * n + 2 * unit) (4 * d)
    (leadingDigit n d) 17 1

end Binary

inductive BinaryFault where
  | outOfRange (text : String)
  | malformed (text : String)
  deriving Repr, DecidableEq, Inhabited

def BinaryFault.message : BinaryFault → String
  | .outOfRange text =>
    "strconv.ParseFloat: parsing " ++ Text.quote text ++ ": " ++ IntegerFault.outOfRange.message
  | .malformed text =>
    "strconv.ParseFloat: parsing " ++ Text.quote text ++ ": " ++ IntegerFault.syntaxFault.message

namespace Decimal

def ofBinary (b : Binary) : Decimal :=
  if b.isNaN then notANumber
  else if b.isInfinite then infinity b.negative
  else if b.mantissa = 0 then { negative := b.negative }
  else
    let (c, s) := b.shortest
    let (digits, removed) := trimZeros (digitsOf c)
    { negative := b.negative, coefficient := digitsValue digits, exponent := s + removed }

/-- The nearest bit pattern. Numbers too small become zero, numbers too large are refused, and so
are those whose scientific text has a sign that is not its first character. -/
def toBinary (d : Decimal) : Except BinaryFault Binary :=
  match d.form with
  | .finite =>
    let below := decide (d.coefficient < 0)
    let found :=
      if d.coefficient = 0 ∨ d.adjusted < -400 then Binary.nearest? (d.negative != below) 0 1
      else if 400 < d.adjusted then none
      else
        Binary.nearest? (d.negative != below)
          (d.coefficient.natAbs * Nat.pow 10 d.exponent.toNat) (Nat.pow 10 (-d.exponent).toNat)
    if below && (d.negative || d.scientificChars.head? != some '-') then
      .error (.malformed d.scientific)
    else
      match found with
      | some b => .ok b
      | none => .error (.outOfRange d.scientific)
  | .infinite => .ok (Binary.infinity d.negative)
  | .nan =>
    if d.negative then .error (.malformed d.scientific)
    else .ok { negative := false, biased := 0x7ff, fraction := 0x8000000000000 }
  | .signaling => .error (.malformed d.scientific)

end Decimal

end Reckoner
