import Reckoner.Decimal.BinaryArithmetic
import Reckoner.Text.Digits

/-!
Numbers on a command line: integers in the base their first characters tell, and real numbers.
Underscores may stand between digits.
-/

namespace Reckoner.Command

def unsigned : List Char → Bool × List Char
  | '-' :: rest => (true, rest)
  | '+' :: rest => (false, rest)
  | text => (false, text)

def baseOf? (c : Char) : Option Nat :=
  match c.toLower with
  | 'x' => some 16
  | 'o' => some 8
  | 'b' => some 2
  | _ => none

/-- Whether every underscore stands between digits, or after the mark of a base and before a
digit; `before` is the character in front. -/
def underscoresSeparate (isDigit : Char → Bool) : (before : Option Char) → List Char → Bool
  | before, [] => before != some '_'
  | before, c :: rest =>
    (if c == '_' then (before.map isDigit).getD false else before != some '_' || isDigit c)
      && underscoresSeparate isDigit (some c) rest

def underscoresFit (text : List Char) : Bool :=
  match (unsigned text).2 with
  | '0' :: c :: rest =>
    match baseOf? c with
    | some base =>
      underscoresSeparate (fun d => (Text.digitIn? (max base 10) d).isSome) (some '0') rest
    | none => underscoresSeparate Char.isDigit none ('0' :: c :: rest)
  | text => underscoresSeparate Char.isDigit none text

def readDigits (base : Nat) : (n : Nat) → List Char → Except IntegerFault Nat
  | n, [] => .ok n
  | n, c :: rest =>
    if c == '_' then readDigits base n rest
    else
      match Text.digitIn? base c with
      | none => .error .syntaxFault
      | some digit =>
        let n := base * n + digit
        if 0x10000000000000000 ≤ n then .error .outOfRange else readDigits base n rest

def readNatural (text : List Char) : Except IntegerFault Nat :=
  match text with
  | [] => .error .syntaxFault
  | '0' :: c :: d :: rest =>
    match baseOf? c with
    | some base => readDigits base 0 (d :: rest)
    | none => readDigits 8 0 (c :: d :: rest)
  | '0' :: rest => readDigits 8 0 rest
  | text => readDigits 10 0 text

def readInteger (text : String) : Except IntegerFault Int := do
  let cs := text.toList
  let (negative, body) := unsigned cs
  let n ← readNatural body
  if cs.contains '_' && !underscoresFit cs then .error .syntaxFault
  else if negative then if 0x8000000000000000 < n then .error .outOfRange else .ok (-n)
  else if 0x8000000000000000 ≤ n then .error .outOfRange
  else .ok n

def readExponent : List Char → Option Int
  | [] => none
  | _ :: text =>
    let (negative, digits) := unsigned text
    if digits.isEmpty then none
    else (Text.valueIn? 10 digits).map fun n => if negative then -n else n

def scaled? (negative : Bool) (n : Nat) (e : Int) : Option Binary :=
  if n = 0 ∨ e + n.log2 < -2000 then Binary.nearest? negative 0 1
  else if 2000 < e + n.log2 then none
  else Binary.nearest? negative (n * Nat.pow 2 e.toNat) (Nat.pow 2 (-e).toNat)

def readFinite (negative hexadecimal : Bool) (body : List Char) : Except IntegerFault Binary :=
  let base := if hexadecimal then 16 else 10
  let mark := if hexadecimal then 'p' else 'e'
  let mantissa := body.takeWhile fun c => c.toLower != mark
  let tail := body.drop mantissa.length
  let whole := mantissa.takeWhile (· != '.')
  let fraction := (mantissa.drop whole.length).tail
  let exponent := if tail.isEmpty then some 0 else readExponent tail
  match Text.valueIn? base (whole ++ fraction), exponent with
  | some n, some e =>
    if (whole ++ fraction).isEmpty || (hexadecimal && tail.isEmpty) then .error .syntaxFault
    else
      let found :=
        if hexadecimal then scaled? negative n (e - 4 * fraction.length)
        else
          let d : Decimal := { negative, coefficient := n, exponent := e - fraction.length }
          d.toBinary.toOption
      match found with
      | some b => .ok b
      | none => .error .outOfRange
  | _, _ => .error .syntaxFault

/-- A double. Infinity and the mark of no number are words in any case. -/
def readReal (text : String) : Except IntegerFault Binary :=
  let cs := text.toList
  let (negative, body) := unsigned cs
  let word := String.ofList (body.map Char.toLower)
  if word == "inf" || word == "infinity" then .ok (Binary.infinity negative)
  else if text.toLower == "nan" then .ok Binary.notANumber
  else if cs.contains '_' && !underscoresFit cs then .error .syntaxFault
  else
    match body.filter (· != '_') with
    | '0' :: c :: rest =>
      if c.toLower == 'x' then readFinite negative true rest
      else readFinite negative false ('0' :: c :: rest)
    | body => readFinite negative false body

def readBoolean (text : String) : Except IntegerFault Bool :=
  if ["1", "t", "T", "TRUE", "true", "True"].contains text then .ok true
  else if ["0", "f", "F", "FALSE", "false", "False"].contains text then .ok false
  else .error .syntaxFault

end Reckoner.Command
