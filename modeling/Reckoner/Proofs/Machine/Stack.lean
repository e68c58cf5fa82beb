import Reckoner.Machine.Step

/-!
The stack as a list of its live values, the topmost last. What lies above the top plays no part as
long as the top is only raised by pushing.
-/

namespace Reckoner

namespace Stack

def values (s : Stack) : List Value := s.live.toList

variable {s : Stack} {xs : List Value} {v w : Value}

@[simp] theorem length_values (s : Stack) : s.values.length = s.height := s.live.length_toList

@[simp] theorem values_push (s : Stack) (v : Value) : (s.push v).values = s.values ++ [v] :=
  Array.toList_push

theorem top?_eq (whole : s.values = xs ++ [v]) : s.top? = some v := by
  rw [values] at whole
  rw [top?, ← Array.getLast?_toList, whole, List.getLast?_concat]

theorem values_below (whole : s.values = xs ++ [v]) (w : Value) : (s.below w).values = xs := by
  rw [values] at whole
  rw [below, values, Array.toList_pop, whole, List.dropLast_concat]

theorem peek?_eq {distance : Nat} {rest : List Value} (whole : s.values = xs ++ v :: rest)
    (length : rest.length = distance) : s.peek? distance = some v := by
  rw [values] at whole
  have size : s.live.size = xs.length + 1 + distance := by
    rw [← Array.length_toList, whole, List.length_append, List.length_cons, length]
    omega
  rw [peek?, if_pos (by omega), size, ← Array.getElem?_toList, whole,
    show xs.length + 1 + distance - 1 - distance = xs.length by omega,
    List.getElem?_append_right (Nat.le_refl _), Nat.sub_self]
  rfl

theorem values_resize {n : Nat} (bound : n ≤ s.height) : (s.resize n).values = s.values.take n := by
  have small : n ≤ s.live.size := bound
  rw [resize, if_pos small, values, values, Array.toList_shrink]

theorem get?_eq (s : Stack) (slot : Nat) : s.get? slot = s.values[slot]? :=
  Array.getElem?_toList.symm

theorem values_set (s : Stack) (slot : Nat) (v : Value) :
    (s.set slot v).values = s.values.set slot v := Array.toList_setIfInBounds

theorem top_eq {rest : List Value} {n : Nat} (whole : s.values = xs ++ rest)
    (length : rest.length = n) : s.top n = rest := by
  have height : s.height = xs.length + n := by
    rw [← length_values, whole, List.length_append, length]
  rw [values] at whole
  rw [top, Array.toList_extract, whole, height, Nat.add_sub_cancel, ← length]
  simp

end Stack

namespace Machine

def values (m : Machine) : List Value := m.stack.values

variable {m : Machine} {xs : List Value} {v w : Value}

@[simp] theorem length_values (m : Machine) : m.values.length = m.height := m.stack.length_values

def withStack (m : Machine) (s : Stack) : Machine := { m with stack := s }

theorem pop_eq (whole : m.values = xs ++ [v]) : m.pop = .ok (v, m.withStack (m.stack.below v)) := by
  rw [pop, Stack.top?_eq whole]
  rfl

theorem popThen_eq (whole : m.values = xs ++ [v]) (next : Value → Machine → Step) :
    m.popThen next = next v (m.withStack (m.stack.below v)) := by
  rw [popThen, pop_eq whole]

theorem peekThen_eq {distance : Nat} {rest : List Value} (whole : m.values = xs ++ v :: rest)
    (length : rest.length = distance) (next : Value → Step) : m.peekThen distance next = next v := by
  rw [peekThen, peek, Stack.peek?_eq whole length]

def HasRoom (m : Machine) : Prop := m.height < m.maxHeight

theorem push_eq (room : m.HasRoom) (v : Value) : m.push v = .ok (m.withStack (m.stack.push v)) :=
  if_neg (Nat.not_le_of_lt room)

theorem pushOn_eq (room : m.HasRoom) (v : Value) :
    m.pushOn v = .next (m.withStack (m.stack.push v)) := by
  rw [pushOn, push_eq room]

theorem pushOn_full (full : ¬m.HasRoom) (v : Value) : m.pushOn v = m.raise .stackFull := by
  rw [pushOn, push, if_pos (Nat.le_of_not_lt full)]

end Machine

end Reckoner
