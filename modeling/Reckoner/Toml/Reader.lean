import Reckoner.Toml.Number

/-!
Reading documents. A document is a sequence of statements, each on a line of its own; arrays and
inline tables may span lines.
-/

namespace Reckoner.Toml

def skipLayout : (comment : Bool) → List Char → List Char
  | _, [] => []
  | true, c :: rest => skipLayout (!isBreak c) rest
  | false, c :: rest =>
    if isLayout c then skipLayout false rest
    else if c == '#' then skipLayout true rest
    else c :: rest

def skipBlanks (text : List Char) : List Char := text.dropWhile isBlank

def readName : List Char → Option (String × List Char)
  | [] => none
  | c :: rest =>
    if c == '"' || c == '\'' then readLine c rest
    else
      let name := (c :: rest).takeWhile isBareKey
      if name.isEmpty then none else some (String.ofList name, (c :: rest).drop name.length)

def readKey : (fuel : Nat) → List Char → Option (Key × List Char)
  | 0, _ => none
  | fuel + 1, text => do
    let (name, text) ← readName (skipBlanks text)
    match skipBlanks text with
    | '.' :: text =>
      let (names, text) ← readKey fuel text
      return (name :: names, text)
    | text => return ([name], text)

mutual

def readValue : (fuel : Nat) → List Char → Option (Term × List Char)
  | 0, _ => none
  | _ + 1, [] => none
  | fuel + 1, c :: rest =>
    let scalar (read : Option (Scalar × List Char)) : Option (Term × List Char) :=
      read.map fun (s, rest) => (.scalar s, rest)
    if c == '[' then
      (readItems fuel (skipLayout false rest)).map fun (items, rest) => (.array items, rest)
    else if c == '\x7b' then
      (readPairs fuel (skipLayout false rest)).map fun (pairs, rest) => (.table pairs, rest)
    else if c == '"' || c == '\'' then
      scalar ((readText c rest).map fun (s, rest) => (.text s, rest))
    else if c.isDigit then scalar (readNumber (c :: rest))
    else if isSign c then scalar (readSignedNumber c rest)
    else
      match afterSpecial? (c :: rest) with
      | some rest => scalar (some (.real, rest))
      | none =>
        match String.ofList ((c :: rest).takeWhile Char.isAlpha) with
        | "true" => scalar (some (.boolean true, rest.drop 3))
        | "false" => scalar (some (.boolean false, rest.drop 4))
        | _ => none

/-- Reads the rest of an array. A comma may stand after its last item. -/
def readItems : (fuel : Nat) → List Char → Option (List Term × List Char)
  | 0, _ => none
  | fuel + 1, text =>
    match text with
    | ']' :: rest => some ([], rest)
    | _ => do
      let (item, text) ← readValue fuel text
      match skipLayout false text with
      | ']' :: rest => return ([item], rest)
      | ',' :: rest =>
        let (items, rest) ← readItems fuel (skipLayout false rest)
        return (item :: items, rest)
      | _ => none

def readPairs : (fuel : Nat) → List Char → Option (List (Key × Term) × List Char)
  | 0, _ => none
  | fuel + 1, text =>
    match text with
    | '\x7d' :: rest => some ([], rest)
    | _ => do
      let (key, text) ← readKey fuel text
      let text ← expect '=' text
      let (value, text) ← readValue fuel (skipBlanks text)
      match skipLayout false text with
      | '\x7d' :: rest => return ([(key, value)], rest)
      | ',' :: rest =>
        let (pairs, rest) ← readPairs fuel (skipLayout false rest)
        return ((key, value) :: pairs, rest)
      | _ => none

end

def readStatement (fuel : Nat) (text : List Char) : Option (Statement × List Char) :=
  match text with
  | '[' :: '[' :: text => do
    let (key, text) ← readKey fuel text
    return (.element key, ← expect ']' (← expect ']' text))
  | '[' :: text => do
    let (key, text) ← readKey fuel text
    return (.header key, ← expect ']' text)
  | text => do
    let (key, text) ← readKey fuel text
    let (value, text) ← readValue fuel (skipBlanks (← expect '=' text))
    return (.pair key value, text)

def endsLine (text : List Char) : Bool :=
  match skipBlanks text with
  | [] => true
  | c :: _ => isBreak c || c == '#'

def readStatements : (fuel : Nat) → List Char → Option (List Statement)
  | 0, _ => none
  | fuel + 1, text =>
    match skipLayout false text with
    | [] => some []
    | text => do
      let (statement, text) ← readStatement fuel text
      if !endsLine text then none
      return statement :: (← readStatements fuel text)

def isPlain : List Char → Bool
  | [] => true
  | '\r' :: rest => rest.head? == some '\n' && isPlain rest
  | c :: rest => (0x20 ≤ c.toNat || c == '\t' || c == '\n') && c.toNat != 0x7f && isPlain rest

/-- The statements of a document. A byte order mark in front does not count. -/
def read? (document : String) : Option (List Statement) :=
  let text :=
    match document.toList with
    | '\uFEFF' :: rest => rest
    | text => text
  if isPlain text then readStatements (2 * text.length + 2) text else none

end Reckoner.Toml
