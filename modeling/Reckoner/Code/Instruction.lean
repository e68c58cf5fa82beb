import Reckoner.Code.Routine

/-!
Decoding. An instruction is read at a byte offset; reserved bytes are instructions without operand.
-/

namespace Reckoner

structure Instruction where
  offset : Nat
  byte : UInt8
  name : String
  operand : Option Nat
  target : Option Int
  constant : Option Constant
  size : Nat

inductive DecodeFault where
  | outOfRange (offset : Int)
  | truncated (offset : Nat)
  | constantRange (index : Nat)
  deriving Repr, DecidableEq, Inhabited

def DecodeFault.message : DecodeFault → String
  | .outOfRange offset => "offset " ++ Text.integer offset ++ " out of range"
  | .truncated offset => "unexpected end of bytecode at " ++ Text.zeroPadded 4 offset
  | .constantRange index => "const index out of range: " ++ Text.natural index

namespace Instruction

def bare (offset : Nat) (byte : UInt8) : Instruction :=
  { offset, byte, name := Operation.nameOf byte, operand := none, target := none,
    constant := none, size := 1 }

def text (i : Instruction) : String :=
  match i.operand with
  | none => i.name
  | some operand =>
    let start := Text.padRight 16 i.name ++ " " ++ Text.padLeft 4 (Text.natural operand)
    match i.constant, i.target with
    | some c, _ => start ++ " ; " ++ c.display
    | none, some target =>
      if 0 ≤ target then start ++ " ; -> " ++ Text.zeroPadded 4 target.toNat else start
    | none, none => start

def blank : Instruction :=
  { offset := 0, byte := 0, name := "", operand := some 0, target := some 0, constant := none,
    size := 0 }

end Instruction

namespace Routine

def operandAt? (r : Routine) (offset : Nat) : (width : Nat) → Option Nat
  | 0 => some 0
  | 1 => (r.code[offset]?).map UInt8.toNat
  | _ =>
    match r.code[offset]?, r.code[offset + 1]? with
    | some high, some low => some (high.toNat * 256 + low.toNat)
    | _, _ => none

def withOperand (r : Routine) (i : Instruction) (kind : Operand) (value : Nat) :
    Except DecodeFault Instruction :=
  let i := { i with operand := some value, size := 1 + kind.width }
  let next : Int := i.offset + i.size
  match kind with
  | .none => .ok { i with operand := none }
  | .constant =>
    match r.constants[value]? with
    | some c => .ok { i with constant := some c }
    | none => .error (.constantRange value)
  | .jump => .ok { i with target := some (next + value) }
  | .loop => .ok { i with target := some (next - value) }
  | .slot | .count => .ok i

def decodeAt (r : Routine) (offset : Nat) : Except DecodeFault Instruction :=
  match r.code[offset]? with
  | none => .error (.outOfRange offset)
  | some b =>
    match Operation.ofByte? b with
    | none => .ok (.bare offset b)
    | some op =>
      match r.operandAt? (offset + 1) op.operand.width with
      | none => .error (.truncated offset)
      | some value => r.withOperand (.bare offset b) op.operand value

def decode (r : Routine) (offset : Int) : Except DecodeFault Instruction :=
  if offset < 0 then .error (.outOfRange offset) else r.decodeAt offset.toNat

def fragment (r : Routine) : DecodeFault → (offset : Int) → Instruction
  | .outOfRange _, _ => .blank
  | .truncated offset, _ => .bare offset ((r.code[offset]?).getD 0)
  | .constantRange index, offset =>
    { Instruction.bare offset.toNat ((r.code[offset.toNat]?).getD 0) with
      operand := some index, size := 2 }

def decodeFrom (r : Routine) : (fuel offset : Nat) → (found : Array Instruction) →
    Array Instruction × Option DecodeFault
  | 0, _, found => (found, none)
  | fuel + 1, offset, found =>
    if r.code.size ≤ offset then (found, none)
    else
      match r.decodeAt offset with
      | .ok i => r.decodeFrom fuel (offset + i.size) (found.push i)
      | .error fault => (found, some fault)

def instructions (r : Routine) : Array Instruction × Option DecodeFault :=
  r.decodeFrom r.code.size 0 #[]

end Routine

end Reckoner
