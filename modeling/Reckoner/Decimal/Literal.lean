import Reckoner.Decimal.Arithmetic
import Reckoner.Decimal.Display
import Reckoner.Text.LowerCase
import Reckoner.Text.Quoted

/-!
Reading decimals. A literal keeps every digit it is written with; only its exponent has to fit.
-/

namespace Reckoner

inductive IntegerFault where
  | syntaxFault
  | outOfRange
  deriving Repr, DecidableEq, Inhabited

def IntegerFault.message : IntegerFault → String
  | .syntaxFault => "invalid syntax"
  | .outOfRange => "value out of range"

def groupValue (digits : List Char) : Nat :=
  digits.foldl (fun n c => n * 10 + (c.toNat - 48)) 0

def appendDigits : (fuel n : Nat) → (digits : List Char) → Nat
  | 0, n, _ => n
  | fuel + 1, n, digits =>
    if digits.isEmpty then n
    else
      let group := digits.take Decimal.groupSize
      appendDigits fuel (n * Nat.pow 10 group.length + groupValue group)
        (digits.drop Decimal.groupSize)

def digitsValue (digits : List Char) : Nat := appendDigits digits.length 0 digits

def readBounded (bound : Nat) : List Char → (value : Nat) → Except IntegerFault Nat
  | [], value => .ok value
  | c :: rest, value =>
    if !c.isDigit then .error .syntaxFault
    else
      let value := value * 10 + (c.toNat - 48)
      if bound < value then .error .outOfRange else readBounded bound rest value

def readNatural (bits : Nat) (text : List Char) : Except IntegerFault Nat :=
  if text.isEmpty then .error .syntaxFault else readBounded (Nat.pow 2 bits - 1) text 0

def splitSign (text : List Char) : Bool × List Char :=
  match text with
  | '-' :: rest => (true, rest)
  | '+' :: rest => (false, rest)
  | _ => (false, text)

def readInteger (bits : Nat) (text : List Char) : Except IntegerFault Int := do
  let (negative, digits) := splitSign text
  let n ← readNatural bits digits
  let half := Nat.pow 2 (bits - 1)
  if negative then if half < n then .error .outOfRange else .ok (-n)
  else if half ≤ n then .error .outOfRange else .ok n

inductive LiteralFault where
  | signs (text : String)
  | mantissa (text : String)
  | exponent (text : String) (fault : IntegerFault)
  | payload (text : String) (fault : IntegerFault)
  | range
  deriving Repr, DecidableEq, Inhabited

def LiteralFault.message : LiteralFault → String
  | .signs text => "could not parse: " ++ text
  | .mantissa text => "parse mantissa: " ++ text
  | .exponent text fault =>
    "parse exponent: " ++ text ++ ": strconv.ParseInt: parsing " ++ Text.quote text ++ ": "
      ++ fault.message
  | .payload text fault =>
    "parse payload: " ++ text ++ ": strconv.ParseUint: parsing " ++ Text.quote text ++ ": "
      ++ fault.message
  | .range => ArithmeticError.exponentRange.message

structure LiteralError where
  text : String
  fault : LiteralFault
  deriving Repr, DecidableEq, Inhabited

def LiteralError.message (e : LiteralError) : String :=
  "invalid number " ++ Text.quote e.text ++ ": " ++ e.fault.message

namespace Decimal

def stripStart? : (start text : List Char) → Option (List Char)
  | [], text => some text
  | s :: start, c :: text => if s == c then stripStart? start text else none
  | _ :: _, [] => none

def splitAt? (mark : Char) (text : List Char) : Option (List Char × List Char) :=
  match text.dropWhile (· != mark) with
  | [] => none
  | _ :: after => some (text.takeWhile (· != mark), after)

def readCoefficient (text : List Char) : Except LiteralFault Int :=
  let (below, digits) := splitSign text
  if digits.isEmpty || !digits.all Char.isDigit then .error (.mantissa (String.ofList text))
  else .ok (if below then -(digitsValue digits : Int) else digitsValue digits)

def readFinite (negative : Bool) (text : List Char) : Except LiteralFault Decimal := do
  let (mantissa, written) ←
    match splitAt? 'e' text with
    | none => .ok (text, [])
    | some (mantissa, exponent) =>
      match readInteger 32 exponent with
      | .ok e => .ok (mantissa, [e])
      | .error fault => .error (.exponent (String.ofList exponent) fault)
  let (digits, parts) :=
    match splitAt? '.' mantissa with
    | none => (mantissa, written)
    | some (whole, fraction) => (whole ++ fraction, written ++ [-(fraction.length : Int)])
  let coefficient ← readCoefficient digits
  match place { negative, coefficient } parts with
  | .ok d => if withinLimit d.exponent then .ok d else .error .range
  | .error _ => .error .range

def readPayload (d : Decimal) (text : List Char) : Except LiteralFault Decimal :=
  if text.isEmpty then .ok d
  else
    match readNatural 64 text with
    | .ok _ => .ok d
    | .error fault => .error (.payload (String.ofList text) fault)

def readUnsigned (negative : Bool) (text : List Char) : Except LiteralFault Decimal :=
  if text == "infinity".toList || text == "inf".toList then .ok (infinity negative)
  else
    match stripStart? "nan".toList text with
    | some rest =>
      match stripStart? "snan".toList rest with
      | some payload => readPayload { form := .signaling, negative } payload
      | none => readPayload { form := .nan, negative } rest
    | none =>
      match stripStart? "snan".toList text with
      | some payload => readPayload { form := .signaling, negative } payload
      | none => readFinite negative text

def readSigned (text : List Char) : Except LiteralFault Decimal :=
  let (negative, rest) := splitSign text
  match rest with
  | '-' :: _ | '+' :: _ => .error (.signs (String.ofList text))
  | _ => readUnsigned negative (rest.map Text.lowerChar)

/-- Reads a number. A leading point stands for a zero and a point. -/
def parse (text : String) : Except LiteralError Decimal :=
  let chars :=
    match text.toList with
    | '.' :: rest => '0' :: '.' :: rest
    | chars => chars
  match readSigned chars with
  | .ok d => .ok d
  | .error fault => .error { text := String.ofList chars, fault }

end Decimal

end Reckoner
