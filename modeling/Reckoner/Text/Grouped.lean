import Reckoner.Decimal.Binary

/-!
Numbers with a comma between every three digits.
-/

namespace Reckoner.Text

def groupReversed : List Char → List Char
  | a :: b :: c :: d :: rest => a :: b :: c :: ',' :: groupReversed (d :: rest)
  | cs => cs

def groupDigits (cs : List Char) : List Char := (groupReversed cs.reverse).reverse

def grouped (n : Int) : String :=
  (if n < 0 then "-" else "") ++ String.ofList (groupDigits (Nat.toDigits 10 n.natAbs))

def groupedFraction (places : Nat) (b : Binary) : String :=
  if b.isNaN then "NaN"
  else if b.isInfinite then (if b.negative then "-" else "") ++ "+,Inf"
  else
    let digits := (Decimal.ofBinary { b with negative := false }).display.toList
    let fraction := digits.dropWhile (· ≠ '.')
    (if b.negative then "-" else "")
      ++ String.ofList (groupDigits (digits.takeWhile (· ≠ '.')) ++ fraction.take (places + 1))

end Reckoner.Text
