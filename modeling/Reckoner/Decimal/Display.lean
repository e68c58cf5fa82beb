import Reckoner.Decimal.Basic

/-!
Two texts of a decimal. The display shows plain digits without trailing zeros and is the same for
all representations of a number; the scientific text keeps coefficient and exponent apart.
-/

namespace Reckoner.Decimal

def zeros (n : Nat) : List Char := List.replicate n '0'

def groupSize : Nat := 18

def digitsBefore : (fuel n : Nat) → (tail : List Char) → List Char
  | 0, n, tail => Nat.toDigits 10 n ++ tail
  | fuel + 1, n, tail =>
    if n < Nat.pow 10 groupSize then Nat.toDigits 10 n ++ tail
    else
      let group := Nat.toDigits 10 (n % Nat.pow 10 groupSize)
      digitsBefore fuel (n / Nat.pow 10 groupSize)
        (zeros (groupSize - group.length) ++ group ++ tail)

def digitsOf (n : Nat) : List Char := digitsBefore n.log2 n []

def coefficientChars (n : Int) : List Char :=
  if n < 0 then '-' :: digitsOf n.natAbs else digitsOf n.natAbs

def withPoint (digits : List Char) (places : Nat) : List Char :=
  if places = 0 then digits
  else
    let padded := zeros (places + 1 - digits.length) ++ digits
    let whole := padded.length - places
    padded.take whole ++ '.' :: padded.drop whole

def plain (digits : List Char) (exponent : Int) : List Char :=
  if 0 ≤ exponent then digits ++ zeros exponent.toNat else withPoint digits (-exponent).toNat

def trimZeros (digits : List Char) : List Char × Nat :=
  let kept := (digits.reverse.dropWhile (· == '0')).reverse
  (kept, digits.length - kept.length)

def specialText : Form → List Char
  | .infinite => "Infinity".toList
  | .signaling => "sNaN".toList
  | _ => "NaN".toList

def signed (negative : Bool) (text : List Char) : List Char :=
  if negative then '-' :: text else text

/-- The characters of the display. Every zero is `0`. -/
def displayChars (d : Decimal) : List Char :=
  if d.isZero then ['0']
  else if d.isFinite then
    let (digits, removed) := trimZeros (coefficientChars d.coefficient)
    signed d.negative (plain digits (d.exponent + removed))
  else signed d.negative (specialText d.form)

def display (d : Decimal) : String := String.ofList d.displayChars

def exponential (digits : List Char) (exponent : Int) : List Char :=
  let fraction := digits.drop 1
  let power := exponent + fraction.length
  digits.take 1 ++ (if fraction.isEmpty then [] else '.' :: fraction) ++
    'E' :: (if power < 0 then '-' else '+') :: digitsOf power.natAbs

/-- The smallest exponent at which a zero is still written out in full. -/
def plainZeroLimit : Int := -2000

def scientificChars (d : Decimal) : List Char :=
  if d.isFinite then
    let digits := coefficientChars d.coefficient
    let near := -6 ≤ d.exponent + digits.length - 1
    let written :=
      if d.exponent ≤ 0 ∧ (near ∨ (d.coefficient = 0 ∧ plainZeroLimit ≤ d.exponent)) then
        plain digits d.exponent
      else exponential digits d.exponent
    signed d.negative written
  else signed d.negative (specialText d.form)

def scientific (d : Decimal) : String := String.ofList d.scientificChars

end Reckoner.Decimal
