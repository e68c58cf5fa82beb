/-!
White space in any script, and text without it at its ends.
-/

namespace Reckoner.Text

def isBlank (c : Char) : Bool :=
  let n := c.toNat
  (9 ≤ n && n ≤ 13) || n == 0x20 || n == 0x85 || n == 0xa0 || n == 0x1680
    || (0x2000 ≤ n && n ≤ 0x200a) || n == 0x2028 || n == 0x2029 || n == 0x202f || n == 0x205f
    || n == 0x3000

def trimEnd (p : Char → Bool) (cs : List Char) : List Char := (cs.reverse.dropWhile p).reverse

def trim (s : String) : String := String.ofList (trimEnd isBlank (s.toList.dropWhile isBlank))

def isAllBlank (s : String) : Bool := s.toList.all isBlank

end Reckoner.Text
