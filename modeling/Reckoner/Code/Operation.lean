import Reckoner.Text.Columns
import Reckoner.Text.Quoted

/-!
The operations of the bytecode. Each has a byte, a mnemonic and at most one operand; bytes that
belong to no operation are reserved.
-/

namespace Reckoner

inductive Operand where
  | none
  | constant
  | slot
  | count
  | jump
  | loop
  deriving Repr, DecidableEq, Inhabited

/-- The number of operand bytes. Distances take two, with the high byte first. -/
def Operand.width : Operand → Nat
  | .none => 0
  | .constant | .slot | .count => 1
  | .jump | .loop => 2

inductive Operation where
  | true
  | false
  | constant
  | pop
  | popN
  | loadGlobal
  | assignGlobal
  | defineGlobal
  | loadLocal
  | assignLocal
  | equal
  | greater
  | less
  | add
  | subtract
  | multiply
  | divide
  | exponent
  | modulo
  | negate
  | not
  | print
  | jump
  | jumpIfFalse
  | loop
  | call
  | return
  deriving Repr, DecidableEq, Inhabited

namespace Operation

def byte : Operation → UInt8
  | .true => 0
  | .false => 1
  | .constant => 2
  | .pop => 4
  | .popN => 5
  | .loadGlobal => 8
  | .assignGlobal => 9
  | .defineGlobal => 10
  | .loadLocal => 11
  | .assignLocal => 12
  | .equal => 16
  | .greater => 17
  | .less => 18
  | .add => 20
  | .subtract => 21
  | .multiply => 22
  | .divide => 23
  | .exponent => 24
  | .modulo => 25
  | .negate => 26
  | .not => 27
  | .print => 28
  | .jump => 32
  | .jumpIfFalse => 33
  | .loop => 34
  | .call => 36
  | .return => 37

def ofByte? : UInt8 → Option Operation
  | 0 => some .true
  | 1 => some .false
  | 2 => some .constant
  | 4 => some .pop
  | 5 => some .popN
  | 8 => some .loadGlobal
  | 9 => some .assignGlobal
  | 10 => some .defineGlobal
  | 11 => some .loadLocal
  | 12 => some .assignLocal
  | 16 => some .equal
  | 17 => some .greater
  | 18 => some .less
  | 20 => some .add
  | 21 => some .subtract
  | 22 => some .multiply
  | 23 => some .divide
  | 24 => some .exponent
  | 25 => some .modulo
  | 26 => some .negate
  | 27 => some .not
  | 28 => some .print
  | 32 => some .jump
  | 33 => some .jumpIfFalse
  | 34 => some .loop
  | 36 => some .call
  | 37 => some .return
  | _ => none

@[simp] theorem ofByte?_byte (op : Operation) : ofByte? op.byte = some op := by
  cases op <;> rfl

def operand : Operation → Operand
  | .constant | .loadGlobal | .assignGlobal | .defineGlobal => .constant
  | .loadLocal | .assignLocal => .slot
  | .popN | .call => .count
  | .jump | .jumpIfFalse => .jump
  | .loop => .loop
  | _ => .none

def mnemonic : Operation → String
  | .true => "OP_TRUE"
  | .false => "OP_FALSE"
  | .constant => "OP_CONSTANT"
  | .pop => "OP_POP"
  | .popN => "OP_POPN"
  | .loadGlobal => "OP_LOAD_GLOBAL"
  | .assignGlobal => "OP_ASSIGN_GLOBAL"
  | .defineGlobal => "OP_DEFINE_GLOBAL"
  | .loadLocal => "OP_LOAD_LOCAL"
  | .assignLocal => "OP_ASSIGN_LOCAL"
  | .equal => "OP_EQUAL"
  | .greater => "OP_GREATER"
  | .less => "OP_LESS"
  | .add => "OP_ADD"
  | .subtract => "OP_SUBTRACT"
  | .multiply => "OP_MULTIPLY"
  | .divide => "OP_DIVIDE"
  | .exponent => "OP_EXP"
  | .modulo => "OP_MODULO"
  | .negate => "OP_NEGATE"
  | .not => "OP_NOT"
  | .print => "OP_PRINT"
  | .jump => "OP_JUMP"
  | .jumpIfFalse => "OP_JUMP_IF_FALSE"
  | .loop => "OP_LOOP"
  | .call => "OP_CALL"
  | .return => "OP_RETURN"

def nameOf (b : UInt8) : String :=
  match ofByte? b with
  | some op => op.mnemonic
  | none => "OP_0x" ++ String.ofList ((Text.hexadecimal 2 b.toNat).map Char.toUpper)

end Operation

end Reckoner
