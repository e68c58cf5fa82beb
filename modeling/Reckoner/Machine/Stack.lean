import Reckoner.Machine.Value

/-!
The value stack. Cells above the top keep what was last stored in them, and raising the height
again brings it back.
-/

namespace Reckoner

/-- The live values from the bottom to the top, and the cells above the top from the nearest on. -/
structure Stack where
  live : Array Value
  above : List Value

namespace Stack

def empty : Stack := { live := #[], above := [] }

instance : Inhabited Stack := ⟨empty⟩

def height (s : Stack) : Nat := s.live.size

def push (s : Stack) (v : Value) : Stack :=
  { live := s.live.push v, above := s.above.drop 1 }

@[inline] def top? (s : Stack) : Option Value := s.live.back?

def below (s : Stack) (v : Value) : Stack := { live := s.live.pop, above := v :: s.above }

@[inline] def peek? (s : Stack) (distance : Nat) : Option Value :=
  if distance < s.live.size then s.live[s.live.size - 1 - distance]? else none

def resize (s : Stack) (height : Nat) : Stack :=
  if height ≤ s.live.size then
    let above := (s.live.extract height s.live.size).toList ++ s.above
    { live := s.live.shrink height, above }
  else
    let raised := height - s.live.size
    { live := s.live ++ (s.above.take raised).toArray, above := s.above.drop raised }

@[inline] def get? (s : Stack) (slot : Nat) : Option Value := s.live[slot]?

def set (s : Stack) (slot : Nat) (v : Value) : Stack :=
  { s with live := s.live.setIfInBounds slot v }

/-- The topmost values, the deepest of them first. -/
def top (s : Stack) (n : Nat) : List Value := (s.live.extract (s.height - n) s.height).toList

end Stack

end Reckoner
