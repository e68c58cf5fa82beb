import Reckoner.Text.Lines
import Reckoner.Token.Scan

/-!
Words of a document. Positions count lines from zero and columns in bytes.
-/

namespace Reckoner.Editor

structure Position where
  line : Nat
  column : Nat
  deriving Repr, DecidableEq, Inhabited

/-- Bytes that belong to a word: digits, the underscore, and those with the number of a letter,
where the letters go up to that of the last byte. -/
def isWordByte (b : UInt8) : Bool :=
  (0x30 ≤ b && b ≤ 0x39) || (0x41 ≤ b && b ≤ 0x5a) || (0x61 ≤ b && b ≤ 0x7a) || b == 0x5f
    || b == 0xaa || b == 0xb5 || b == 0xba || (0xc0 ≤ b && b != 0xd7 && b != 0xf7)

/-- The bytes of a line before and after a position; a column beyond the line is its end. -/
def around (text : String) (p : Position) : List UInt8 × List UInt8 :=
  match (Text.cut '\n' text)[p.line]? with
  | none => ([], [])
  | some line => (bytesOf line).splitAt p.column

def wordStart (text : String) (p : Position) : List UInt8 :=
  ((around text p).1.reverse.takeWhile isWordByte).reverse

def wordAt (text : String) (p : Position) : List UInt8 :=
  wordStart text p ++ (around text p).2.takeWhile isWordByte

def namesAfter : (previous : Kind) → List Token → List String
  | _, [] => []
  | previous, t :: rest =>
    if t.kind == .identifier && (previous == .fn || previous == .var) then
      t.lexeme :: namesAfter t.kind rest
    else namesAfter t.kind rest

def declaredNames (text : String) : List String := namesAfter .eof (scan (bytesOf text))

def parameterText : List Token → Option String
  | [] => none
  | t :: rest =>
    match t.kind with
    | .eof | .error => none
    | .rightParen => some t.lexeme
    | .comma => (parameterText rest).map fun s => ", " ++ s
    | _ => (parameterText rest).map fun s => t.lexeme ++ s

def signatureFrom (name : List UInt8) : (previous : Kind) → List Token → Option String
  | _, [] => none
  | previous, t :: rest =>
    if t.kind == .eof || t.kind == .error then none
    else if previous == .fn && t.kind == .identifier && bytesOf t.lexeme == name then
      (parameterText rest).map fun s => "fn " ++ t.lexeme ++ s
    else signatureFrom name t.kind rest

def signature? (name : List UInt8) (text : String) : Option String :=
  signatureFrom name .eof (scan (bytesOf text))

end Reckoner.Editor
