import Reckoner.Text.Digits
import Reckoner.Toml.Basic

/-!
Quoted texts. Between double quotes a backslash starts an escape; between single quotes everything
stands for itself. Three quotes enclose text of several lines.
-/

namespace Reckoner.Toml

def closeLine (quote : Char) (escapes : Bool) : (seen : List Char) → List Char →
    Option (List Char × List Char)
  | _, [] => none
  | seen, c :: rest =>
    if c == quote then some (seen.reverse, rest)
    else if isBreak c then none
    else if escapes && c == '\\' then
      match rest with
      | [] => none
      | escaped :: rest =>
        if isBreak escaped then none else closeLine quote escapes (escaped :: c :: seen) rest
    else closeLine quote escapes (c :: seen) rest

def endsInQuotes (quote : Char) (escapes : Bool) (seen : List Char) : Bool :=
  seen.take 2 == [quote, quote] && !(escapes && (seen.drop 2).head? == some '\\')

/-- The text up to three closing quotes. Up to two more quotes in front of them belong to the
text. -/
def closeBlock (quote : Char) (escapes : Bool) : (seen : List Char) → List Char →
    Option (List Char × List Char)
  | _, [] => none
  | seen, c :: rest =>
    if c == quote && rest.take 2 == [quote, quote] then
      if (rest.drop 2).head? != some quote then some (seen.reverse, rest.drop 2)
      else if endsInQuotes quote escapes seen then none
      else closeBlock quote escapes (c :: seen) rest
    else if escapes && c == '\\' then
      match rest with
      | [] => none
      | escaped :: rest => closeBlock quote escapes (escaped :: c :: seen) rest
    else closeBlock quote escapes (c :: seen) rest

def codedChar? (digits : List Char) : Option Char := do
  let code ← Text.valueIn? 16 digits
  if h : code.isValidChar then some (Char.ofNatAux code h) else none

def shortEscape? : Char → Option Char
  | 'b' => some '\x08'
  | 't' => some '\t'
  | 'n' => some '\n'
  | 'f' => some '\x0c'
  | 'r' => some '\r'
  | 'e' => some '\x1b'
  | '"' => some '"'
  | '\\' => some '\\'
  | _ => none

def unescape : List Char → Option (List Char)
  | [] => some []
  | '\\' :: 'x' :: a :: b :: rest => do
    let c ← codedChar? [a, b]
    return c :: (← unescape rest)
  | '\\' :: 'u' :: a :: b :: c :: d :: rest => do
    let c ← codedChar? [a, b, c, d]
    return c :: (← unescape rest)
  | '\\' :: 'U' :: a :: b :: c :: d :: e :: f :: g :: h :: rest => do
    let c ← codedChar? [a, b, c, d, e, f, g, h]
    return c :: (← unescape rest)
  | '\\' :: c :: rest => do
    let c ← shortEscape? c
    return c :: (← unescape rest)
  | c :: rest => if c == '\\' then none else (unescape rest).map (c :: ·)

def joinLines : (skipping : Bool) → List Char → List Char
  | _, [] => []
  | _, '\\' :: '\\' :: rest => '\\' :: '\\' :: joinLines false rest
  | skipping, c :: rest =>
    if skipping && isLayout c then joinLines true rest
    else if c == '\\' && (rest.takeWhile isLayout).contains '\n' then joinLines true rest
    else c :: joinLines false rest

def dropFirstBreak : List Char → List Char
  | '\n' :: rest => rest
  | cs => cs

def readLine (quote : Char) (text : List Char) : Option (String × List Char) := do
  let escapes := quote == '"'
  let (raw, rest) ← closeLine quote escapes [] text
  let cs ← if escapes then unescape raw else some raw
  return (String.ofList cs, rest)

def readBlock (quote : Char) (text : List Char) : Option (String × List Char) := do
  let escapes := quote == '"'
  let (raw, rest) ← closeBlock quote escapes [] text
  let raw := dropFirstBreak raw
  let cs ← if escapes then unescape (joinLines false raw) else some raw
  return (String.ofList cs, rest)

def readText (quote : Char) (text : List Char) : Option (String × List Char) :=
  if text.take 2 == [quote, quote] then readBlock quote (text.drop 2) else readLine quote text

end Reckoner.Toml
