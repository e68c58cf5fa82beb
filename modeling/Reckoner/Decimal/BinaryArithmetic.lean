import Reckoner.Decimal.Binary
import Reckoner.Text.Columns

/-!
Arithmetic on 64-bit patterns: exact on the rational numbers they denote, then rounded once to the
nearest pattern.
-/

namespace Reckoner.Binary

def notANumber : Binary := { negative := false, biased := 0x7ff, fraction := 0x8000000000000 }

def isZero (b : Binary) : Bool := b.biased == 0 && b.fraction == 0

def nearest (negative : Bool) (n d : Nat) : Binary :=
  (nearest? negative n d).getD (infinity negative)

def ofInt (n : Int) : Binary := nearest (decide (n < 0)) n.natAbs 1

def mul (a b : Binary) : Binary :=
  let negative := a.negative != b.negative
  if a.isNaN || b.isNaN then notANumber
  else if a.isInfinite || b.isInfinite then
    if a.isZero || b.isZero then notANumber else infinity negative
  else nearest negative (a.quotient.1 * b.quotient.1) (a.quotient.2 * b.quotient.2)

def div (a b : Binary) : Binary :=
  let negative := a.negative != b.negative
  if a.isNaN || b.isNaN then notANumber
  else if a.isInfinite then if b.isInfinite then notANumber else infinity negative
  else if b.isInfinite then { negative, biased := 0, fraction := 0 }
  else if b.isZero then if a.isZero then notANumber else infinity negative
  else nearest negative (a.quotient.1 * b.quotient.2) (a.quotient.2 * b.quotient.1)

def isBelowZero (b : Binary) : Bool := b.negative && !b.isZero && !b.isNaN

def isBelowOne (b : Binary) : Bool := !b.isNaN && (b.negative || b.biased < 1023)

/-- An integer of 64 bits; the least one stands for all that is out of range. -/
def wordOf (n : Int) : Int :=
  if -0x8000000000000000 ≤ n ∧ n < 0x8000000000000000 then n else -0x8000000000000000

def truncate (b : Binary) : Int :=
  if b.biased = 0x7ff then -0x8000000000000000
  else
    let (n, d) := b.quotient
    wordOf (if b.negative then -((n / d : Nat) : Int) else (n / d : Nat))

def round (b : Binary) : Int :=
  if b.biased = 0x7ff then -0x8000000000000000
  else
    let (n, d) := b.quotient
    let magnitude := (2 * n + d) / (2 * d)
    wordOf (if b.negative then -(magnitude : Int) else magnitude)

def floorLog (b : Binary) : Int := leadingBit b.quotient.1 b.quotient.2

def fixed (places : Nat) (b : Binary) : String :=
  if b.isNaN then "NaN"
  else if b.isInfinite then if b.negative then "-Inf" else "+Inf"
  else
    let (n, d) := b.quotient
    let scaled := Tie.toEven.divide (n * Nat.pow 10 places) d
    let start := (if b.negative then "-" else "") ++ Text.natural (scaled / Nat.pow 10 places)
    if places = 0 then start
    else start ++ "." ++ Text.zeroPadded places (scaled % Nat.pow 10 places)

end Reckoner.Binary
