import Reckoner.Text.Blank

/-!
Text as lines: the lines of a finished output, and the lines of an input that is read one by one.
-/

namespace Reckoner.Text

def splitOnto (separator : Char) : (pieces : List String) → (piece : List Char) → List Char →
    List String
  | pieces, piece, [] => (String.ofList piece.reverse :: pieces).reverse
  | pieces, piece, c :: rest =>
    if c = separator then splitOnto separator (String.ofList piece.reverse :: pieces) [] rest
    else splitOnto separator pieces (c :: piece) rest

def cut (separator : Char) (s : String) : List String := splitOnto separator [] [] s.toList

/-- The lines of an output. Line ends at its end do not count, and an empty output has no lines. -/
def outputLines (s : String) : List String :=
  match trimEnd (· = '\n') s.toList with
  | [] => []
  | cs => splitOnto '\n' [] [] cs

def dropReturn (s : String) : String :=
  match s.toList.reverse with
  | '\r' :: rest => String.ofList rest.reverse
  | _ => s

def inputLines (limit : Nat) (s : String) : List String × Bool :=
  let raw := cut '\n' s
  let raw := if raw.getLast? = some "" then raw.dropLast else raw
  let fitting := raw.takeWhile fun line => line.utf8ByteSize < limit
  (fitting.map dropReturn, fitting.length < raw.length)

end Reckoner.Text
