import Reckoner.Toml.Basic

/-!
Dates and times: a date, a time of day, or both with an optional distance from universal time.
Every field has its full number of digits; seconds and their fraction can be left out.
-/

namespace Reckoner.Toml

def readField (digits : Nat) (text : List Char) : Option (Nat × List Char) :=
  let field := text.take digits
  if field.length = digits ∧ field.all Char.isDigit then
    some (field.foldl (fun n c => 10 * n + (c.toNat - '0'.toNat)) 0, text.drop digits)
  else none

def expect (mark : Char) : List Char → Option (List Char)
  | c :: rest => if c == mark then some rest else none
  | [] => none

def isLeapYear (year : Nat) : Bool := year % 4 == 0 && (year % 100 != 0 || year % 400 == 0)

def daysIn (year month : Nat) : Nat :=
  if month == 2 then if isLeapYear year then 29 else 28
  else if [4, 6, 9, 11].contains month then 30
  else 31

def readDate (text : List Char) : Option (List Char) := do
  let (year, text) ← readField 4 text
  let (month, text) ← readField 2 (← expect '-' text)
  let (day, text) ← readField 2 (← expect '-' text)
  if 1 ≤ month ∧ month ≤ 12 ∧ 1 ≤ day ∧ day ≤ daysIn year month then some text else none

def readFraction : List Char → List Char
  | '.' :: c :: rest => if c.isDigit then rest.dropWhile Char.isDigit else '.' :: c :: rest
  | text => text

def readTime (text : List Char) : Option (List Char) := do
  let (hour, text) ← readField 2 text
  let (minute, text) ← readField 2 (← expect ':' text)
  if 24 ≤ hour ∨ 60 ≤ minute then none
  else
    match text with
    | ':' :: text => do
      let (second, text) ← readField 2 text
      if 60 ≤ second then none else some (readFraction text)
    | text => some text

def isOffset : List Char → Bool
  | [] => true
  | ['Z'] => true
  | sign :: text =>
    (sign == '+' || sign == '-') &&
      (match readField 2 text with
      | some (hours, ':' :: text) =>
        (match readField 2 text with
        | some (minutes, []) => hours ≤ 24 && minutes ≤ 60
        | _ => false)
      | _ => false)

def momentMark (c : Char) : Char :=
  if c == 't' || c == ' ' then 'T' else if c == 'z' then 'Z' else c

def isMoment (text : List Char) : Bool :=
  let text := text.map momentMark
  readTime text == some [] ||
    (match readDate text with
    | none => false
    | some [] => true
    | some (mark :: text) =>
      mark == 'T' &&
        (match readTime text with
        | some offset => isOffset offset
        | none => false))

def isMomentChar (c : Char) : Bool :=
  c.isDigit || ['-', ':', 'T', 't', ' ', '.', 'Z', 'z', '+'].contains c

end Reckoner.Toml
