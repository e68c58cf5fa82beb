/-!
The integer types of a host program, each with its name and its range.
-/

namespace Reckoner

inductive IntegerType where
  | int
  | int8
  | int16
  | int32
  | int64
  | uint
  | uint8
  | uint16
  | uint32
  | uint64
  deriving Repr, DecidableEq, Inhabited

namespace IntegerType

def all : List IntegerType :=
  [int, int8, int16, int32, int64, uint, uint8, uint16, uint32, uint64]

def name : IntegerType → String
  | int => "int"
  | int8 => "int8"
  | int16 => "int16"
  | int32 => "int32"
  | int64 => "int64"
  | uint => "uint"
  | uint8 => "uint8"
  | uint16 => "uint16"
  | uint32 => "uint32"
  | uint64 => "uint64"

def signed : IntegerType → Bool
  | int | int8 | int16 | int32 | int64 => true
  | _ => false

def bits : IntegerType → Nat
  | int8 | uint8 => 8
  | int16 | uint16 => 16
  | int32 | uint32 => 32
  | _ => 64

def least (t : IntegerType) : Int := if t.signed then -(Nat.pow 2 (t.bits - 1) : Nat) else 0

def greatest (t : IntegerType) : Int :=
  if t.signed then (Nat.pow 2 (t.bits - 1) : Nat) - 1 else (Nat.pow 2 t.bits : Nat) - 1

def contains (t : IntegerType) (n : Int) : Bool := t.least ≤ n && n ≤ t.greatest

end IntegerType

end Reckoner
