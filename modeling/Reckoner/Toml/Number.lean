import Reckoner.Decimal.Binary
import Reckoner.Toml.Moment
import Reckoner.Toml.Quoted

/-!
Numbers. An underscore stands only between digits, and a decimal number of more than one digit does
not start with zero.
-/

namespace Reckoner.Toml

/-- Whether every underscore has a digit on either side; `between` tells of the character in
front. -/
def underscoresDivide : (between : Bool) → List Char → Bool
  | between, [] => between
  | between, c :: rest =>
    if c == '_' then between && underscoresDivide false rest
    else underscoresDivide (Text.digitValue? c).isSome rest

def isSign (c : Char) : Bool := c == '+' || c == '-'

def startsWithZero (text : List Char) : Bool :=
  let digits := text.dropWhile isSign
  digits.head? == some '0' && 1 < digits.length

def withoutUnderscores (text : List Char) : List Char := text.filter (· != '_')

def decimalInteger (text : List Char) : Option Int :=
  if underscoresDivide false text && !startsWithZero text then
    (readInteger 64 (withoutUnderscores text)).toOption
  else none

def basedInteger (base : Nat) (text : List Char) : Option Int := do
  if !underscoresDivide false text then none
  let n ← Text.valueIn? base (withoutUnderscores text)
  if 0x8000000000000000 ≤ n then none else some n

def isExponentMark (c : Char) : Bool := c == 'e' || c == 'E'

def pieces : (piece : List Char) → List Char → List (List Char)
  | piece, [] => [piece.reverse]
  | piece, c :: rest =>
    if c == '.' || isExponentMark c then piece.reverse :: pieces [] rest
    else pieces (c :: piece) rest

def pointsContinue : List Char → Bool
  | [] => true
  | c :: rest =>
    (c != '.' || (rest.head?.map Char.isDigit).getD false) && pointsContinue rest

def fractionDigits? : List Char → Option (List Char)
  | [] => some []
  | c :: digits => if c == '.' && digits.all Char.isDigit then some digits else none

def exponentValue? : List Char → Option Int
  | [] => some 0
  | _ :: text =>
    let digits := if (text.head?.map isSign).getD false then text.tail else text
    if digits.isEmpty || !digits.all Char.isDigit then none
    else some (if text.head? == some '-' then -digitsValue digits else digitsValue digits)

def magnitude? (text : List Char) : Option Decimal := do
  let mantissa := text.takeWhile (!isExponentMark ·)
  let whole := mantissa.takeWhile Char.isDigit
  let fraction ← fractionDigits? (mantissa.drop whole.length)
  let exponent ← exponentValue? (text.drop mantissa.length)
  return { coefficient := digitsValue (whole ++ fraction), exponent := exponent - fraction.length }

def isReal (text : List Char) : Bool :=
  let found := (pieces [] text).filter (!·.isEmpty)
  found.all (underscoresDivide false) && !startsWithZero (found.headD []) && pointsContinue text &&
    (match magnitude? ((withoutUnderscores text).dropWhile isSign) with
    | some d => d.toBinary.toOption.isSome
    | none => false)

/-- Reads a number without base after its sign, if it has one: an integer, or a real number if a
point or an exponent follows. -/
def readDecimal (sign text : List Char) : Option (Scalar × List Char) :=
  let whole := text.takeWhile fun c => c.isDigit || c == '_'
  let rest := text.drop whole.length
  match rest with
  | [] => (decimalInteger (sign ++ whole)).map (.integer ·, rest)
  | mark :: _ =>
    if mark == '.' || isExponentMark mark then
      let fraction := rest.takeWhile fun c =>
        c.isDigit || c == '_' || c == '.' || isSign c || isExponentMark c
      if isReal (sign ++ whole ++ fraction) then some (.real, rest.drop fraction.length) else none
    else (decimalInteger (sign ++ whole)).map (.integer ·, rest)

def baseOf? : Char → Option Nat
  | 'x' => some 16
  | 'o' => some 8
  | 'b' => some 2
  | _ => none

def readNumber (text : List Char) : Option (Scalar × List Char) :=
  let digits := text.takeWhile Char.isDigit
  match text.drop digits.length with
  | mark :: rest =>
    if mark == '-' || mark == ':' then
      let moment := text.takeWhile isMomentChar
      let trimmed := (moment.reverse.dropWhile isBlank).reverse
      if isMoment trimmed then some (.moment, text.drop moment.length) else none
    else
      match if digits == ['0'] then baseOf? mark else none with
      | some base =>
        let based := rest.takeWhile fun c => (Text.digitIn? base c).isSome || c == '_'
        (basedInteger base based).map (.integer ·, rest.drop based.length)
      | none => readDecimal [] text
  | [] => readDecimal [] text

def afterWord? : (word text : List Char) → Option (List Char)
  | [], text => some text
  | c :: word, d :: text => if c == d then afterWord? word text else none
  | _ :: _, [] => none

def afterSpecial? (text : List Char) : Option (List Char) :=
  afterWord? "inf".toList text <|> afterWord? "nan".toList text

def readSignedNumber (sign : Char) (text : List Char) : Option (Scalar × List Char) :=
  match afterSpecial? text with
  | some rest => some (.real, rest)
  | none =>
    if (text.head?.map Char.isDigit).getD false then readDecimal [sign] text else none

end Reckoner.Toml
