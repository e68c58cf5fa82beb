import Reckoner.Token.Basic

/-!
From bytes to tokens. A cursor skips blanks and comments, then takes the longest token that starts
where it stands; every byte that starts no token is an error token of its own. A word is recognised by
its first byte and what follows it, without a search in the names of the reserved words.
-/

namespace Reckoner

def bytesOf (text : String) : List UInt8 := text.toUTF8.data.toList

namespace Byte

def newline : UInt8 := 0x0a
def slash : UInt8 := 0x2f
def point : UInt8 := 0x2e
def equals : UInt8 := 0x3d
def asterisk : UInt8 := 0x2a

def isBlank (b : UInt8) : Bool := b == 0x20 || b == 0x09 || b == 0x0d

def isDigit (b : UInt8) : Bool := 0x30 ≤ b && b ≤ 0x39

def isLetter (b : UInt8) : Bool :=
  (0x61 ≤ b && b ≤ 0x7a) || (0x41 ≤ b && b ≤ 0x5a) || b == 0x5f

def isWord (b : UInt8) : Bool := isLetter b || isDigit b

def toText (bytes : List UInt8) : String :=
  String.ofList (bytes.map fun b => Char.ofNat b.toNat)

end Byte

structure Cursor where
  rest : List UInt8
  offset : Nat
  line : Nat
  deriving Repr, DecidableEq, Inhabited

namespace Cursor

def ofBytes (bytes : List UInt8) : Cursor := { rest := bytes, offset := 0, line := 1 }

def skip : (comment : Bool) → (rest : List UInt8) → (offset line : Nat) → Cursor
  | _, [], offset, line => ⟨[], offset, line⟩
  | true, b :: rest, offset, line =>
    if b == Byte.newline then skip false rest (offset + 1) (line + 1)
    else skip true rest (offset + 1) line
  | false, b :: rest, offset, line =>
    if b == Byte.newline then skip false rest (offset + 1) (line + 1)
    else if Byte.isBlank b then skip false rest (offset + 1) line
    else if b == Byte.slash && rest.head? == some Byte.slash then skip true rest (offset + 1) line
    else ⟨b :: rest, offset, line⟩

/-- The bytes of a number after its first: digits, then a point with at least one digit. -/
def numberTail (rest : List UInt8) : Nat :=
  let digits := (rest.takeWhile Byte.isDigit).length
  match rest.drop digits with
  | p :: fraction =>
    let more := (fraction.takeWhile Byte.isDigit).length
    if p == Byte.point && 0 < more then digits + 1 + more else digits
  | [] => digits

def withEquals (plain assigned : Kind) (rest : List UInt8) : Kind × Nat :=
  if rest.head? == some Byte.equals then (assigned, 2) else (plain, 1)

/-- The kind of a word whose first bytes leave one reserved word: its kind, if the given ending is all that
follows them, and an identifier's if not. -/
def confirm (bytes : List UInt8) (length known : Nat) (ending : String) (kind : Kind) : Kind :=
  if length == known + ending.utf8ByteSize && (bytes.take length).drop known == bytesOf ending then
    kind
  else .identifier

def wordKind (bytes : List UInt8) (length : Nat) : Kind :=
  match bytes with
  | 0x61 :: _ => confirm bytes length 1 "nd" .and
  | 0x62 :: _ => confirm bytes length 1 "reak" .break
  | 0x63 :: _ => confirm bytes length 1 "ontinue" .continue
  | 0x65 :: _ => confirm bytes length 1 "lse" .else
  | 0x66 :: rest =>
    if 1 < length then
      match rest with
      | 0x61 :: _ => confirm bytes length 2 "lse" .false
      | 0x6e :: _ => confirm bytes length 2 "" .fn
      | 0x6f :: _ => confirm bytes length 2 "r" .for
      | _ => .identifier
    else .identifier
  | 0x69 :: _ => confirm bytes length 1 "f" .if
  | 0x6d :: _ => confirm bytes length 1 "od" .mod
  | 0x6f :: _ => confirm bytes length 1 "r" .or
  | 0x70 :: _ => confirm bytes length 1 "rint" .print
  | 0x72 :: _ => confirm bytes length 1 "eturn" .return
  | 0x74 :: _ => confirm bytes length 1 "rue" .true
  | 0x76 :: _ => confirm bytes length 1 "ar" .var
  | 0x77 :: _ => confirm bytes length 1 "hile" .while
  | _ => .identifier

def classify (b : UInt8) (rest : List UInt8) : Kind × Nat :=
  if Byte.isDigit b then (.number, 1 + numberTail rest)
  else if Byte.isLetter b then
    let length := 1 + (rest.takeWhile Byte.isWord).length
    (wordKind (b :: rest) length, length)
  else
    match b with
    | 0x28 => (.leftParen, 1)
    | 0x29 => (.rightParen, 1)
    | 0x7b => (.leftBrace, 1)
    | 0x7d => (.rightBrace, 1)
    | 0x2c => (.comma, 1)
    | 0x2e => if rest.head?.any Byte.isDigit then (.number, 1 + numberTail rest) else (.dot, 1)
    | 0x3a => (.colon, 1)
    | 0x3b => (.semicolon, 1)
    | 0x2d => withEquals .minus .minusEqual rest
    | 0x2b => withEquals .plus .plusEqual rest
    | 0x2f => withEquals .slash .slashEqual rest
    | 0x2a =>
      match rest with
      | 0x2a :: more =>
        let (kind, length) := withEquals .starStar .starStarEqual more
        (kind, length + 1)
      | _ => withEquals .star .starEqual rest
    | 0x21 => withEquals .bang .bangEqual rest
    | 0x3d => withEquals .equal .equalEqual rest
    | 0x3c => withEquals .less .lessEqual rest
    | 0x3e => withEquals .greater .greaterEqual rest
    | _ => (.error, 1)

def lexemeOf (kind : Kind) (bytes : List UInt8) : String :=
  if kind = .error then "Unexpected character" else Byte.toText bytes

/-- The next token and the position after it. At the end of the source the answer is the end
token, again and again. -/
def next (c : Cursor) : Token × Cursor :=
  let c := skip false c.rest c.offset c.line
  match c.rest with
  | [] => ({ kind := .eof, lexeme := "", line := c.line, start := c.offset, stop := c.offset }, c)
  | b :: rest =>
    let (kind, length) := classify b rest
    let token : Token :=
      { kind, lexeme := lexemeOf kind (c.rest.take length), line := c.line, start := c.offset,
        stop := c.offset + length }
    (token, { c with rest := c.rest.drop length, offset := c.offset + length })

def collect : (fuel : Nat) → Cursor → (found : Array Token) → Array Token × Cursor
  | 0, c, found => (found, c)
  | fuel + 1, c, found =>
    let (token, c) := c.next
    if token.kind = .eof then (found.push token, c) else collect fuel c (found.push token)

def take : (n : Nat) → Cursor → List Token
  | 0, _ => []
  | n + 1, c =>
    let (token, c) := c.next
    token :: c.take n

end Cursor

/-- All tokens of a source. Every token but the last takes at least one byte, so that the length
of the source bounds their number. -/
def scan (bytes : List UInt8) : List Token :=
  ((Cursor.ofBytes bytes).collect (bytes.length + 1) #[]).1.toList

def scanBeyond (bytes : List UInt8) (extra : Nat) : List Token :=
  let (found, c) := (Cursor.ofBytes bytes).collect (bytes.length + 1) #[]
  found.toList ++ c.take extra

end Reckoner
