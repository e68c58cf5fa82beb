import Reckoner.Code.Listing
import Reckoner.Proofs.Script.Image

/-!
Reading back what was written. The bytes of some directives decode to exactly these directives, with
the operands they had before they were cut into bytes.
-/

namespace Reckoner.Script

def Stands (code : List Directive) (p : Nat) (d : Directive) : Prop :=
  ∃ before after, code = before ++ d :: after ∧ codeSize before = p

def bytesOfAll (code : List Directive) : List UInt8 := code.flatMap Directive.bytes

@[simp] theorem length_bytesOfAll (code : List Directive) :
    (bytesOfAll code).length = codeSize code := by
  induction code with
  | nil => rfl
  | cons d rest ih =>
      rw [bytesOfAll, List.flatMap_cons, List.length_append, d.length_bytes, codeSize]
      exact congrArg (d.size + ·) ih

theorem bytesOfAll_append (a b : List Directive) :
    bytesOfAll (a ++ b) = bytesOfAll a ++ bytesOfAll b := List.flatMap_append

theorem markedBytes_eq (marked : List Marked) :
    markedBytes marked = bytesOfAll (marked.map Marked.directive) :=
  (List.flatMap_map ..).symm

namespace Stands

variable {code : List Directive} {p : Nat} {d : Directive}

theorem mem (stands : Stands code p d) : d ∈ code := by
  obtain ⟨before, after, rfl, -⟩ := stands
  simp

theorem head (d : Directive) (rest : List Directive) : Stands (d :: rest) 0 d := ⟨[], rest, rfl, rfl⟩

theorem append_left (stands : Stands code p d) (before : List Directive) :
    Stands (before ++ code) (codeSize before + p) d := by
  obtain ⟨inner, after, rfl, rfl⟩ := stands
  exact ⟨before ++ inner, after, (List.append_assoc ..).symm, codeSize_append ..⟩

end Stands

theorem high_low (n : Nat) (bound : n < 65536) :
    (n / 256).toUInt8.toNat * 256 + n.toUInt8.toNat = n := by
  simp only [Nat.toUInt8, UInt8.toNat_ofNat']
  omega

section

variable {r : Routine} {before after : List UInt8} {d : Directive}

theorem byte_at (code : r.code.toList = before ++ d.bytes ++ after) :
    r.code[before.length]? = some d.op.byte := by
  rw [← Array.getElem?_toList, code, List.append_assoc, List.getElem?_append_right (Nat.le_refl _),
    Nat.sub_self]
  rfl

theorem operandAt_eq (code : r.code.toList = before ++ d.bytes ++ after)
    (width : d.operand < Nat.pow 256 d.op.operand.width) :
    r.operandAt? (before.length + 1) d.op.operand.width = some d.operand := by
  have byte : ∀ k, r.code[before.length + 1 + k]? = (d.bytes ++ after)[1 + k]? := by
    intro k
    rw [← Array.getElem?_toList, code, List.append_assoc, List.getElem?_append_right (by omega),
      show before.length + 1 + k - before.length = 1 + k by omega]
  rw [Directive.bytes] at byte
  generalize d.op.operand = kind at *
  cases kind with
  | none =>
      have zero : d.operand = 0 := Nat.lt_one_iff.mp width
      rw [zero]
      rfl
  | constant | slot | count =>
      simp only [Operand.width, Routine.operandAt?]
      rw [byte 0]
      have small : d.operand < 256 := width
      simpa [Directive.operandBytes, Operand.width] using small
  | jump | loop =>
      simp only [Operand.width, Routine.operandAt?]
      rw [byte 0, byte 1]
      simp only [Directive.operandBytes, Operand.width]
      exact congrArg some (high_low d.operand width)

end

namespace Directive

def target (offset : Nat) (d : Directive) : Option Int :=
  match d.op.operand with
  | .jump => some (offset + d.size + d.operand)
  | .loop => some (offset + d.size - d.operand)
  | _ => none

def instruction (pool : Pool) (offset : Nat) (d : Directive) : Instruction :=
  { offset
    byte := d.op.byte
    name := d.op.mnemonic
    operand := if d.op.operand = .none then none else some d.operand
    target := d.target offset
    constant := if d.op.operand = .constant then pool[d.operand]? else none
    size := d.size }

end Directive

theorem decodeAt_eq {r : Routine} {before after : List UInt8} {d : Directive}
    (code : r.code.toList = before ++ d.bytes ++ after) (fits : d.Fits r.constants) :
    r.decodeAt before.length = .ok (d.instruction r.constants before.length) := by
  rw [Routine.decodeAt, byte_at code]
  simp only [Operation.ofByte?_byte, operandAt_eq code fits.width]
  have name : Operation.nameOf d.op.byte = d.op.mnemonic := by
    rw [Operation.nameOf, Operation.ofByte?_byte]
  have stored := fits.stored
  rw [Instruction.bare, name]
  simp only [Routine.withOperand, Directive.instruction, Directive.target, Directive.size]
  generalize d.op.operand = kind at *
  cases kind with
  | constant =>
      rw [Array.getElem?_eq_getElem (stored rfl)]
      rfl
  | _ => rfl

def instructionsFrom (pool : Pool) : (offset : Nat) → List Directive → List Instruction
  | _, [] => []
  | offset, d :: rest => d.instruction pool offset :: instructionsFrom pool (offset + d.size) rest

theorem decodeFrom_eq {r : Routine} {code : List Directive} {before : List UInt8} {fuel : Nat}
    (bytes : r.code.toList = before ++ bytesOfAll code) (enough : codeSize code ≤ fuel)
    (fits : ∀ d ∈ code, d.Fits r.constants) (found : Array Instruction) :
    r.decodeFrom fuel before.length found =
      (found ++ (instructionsFrom r.constants before.length code).toArray, none) := by
  have size : r.code.size = before.length + codeSize code := by
    rw [← Array.length_toList, bytes, List.length_append, length_bytesOfAll]
  induction code generalizing before fuel found with
  | nil =>
      cases fuel with
      | zero => simp [Routine.decodeFrom, instructionsFrom]
      | succ fuel =>
          rw [Routine.decodeFrom, if_pos (by rw [size]; exact Nat.le_refl _)]
          simp [instructionsFrom]
  | cons d rest ih =>
      have positive := d.size_pos
      rw [codeSize] at enough size
      obtain ⟨fuel, rfl⟩ : ∃ n, fuel = n + 1 := ⟨fuel - 1, by omega⟩
      have split : r.code.toList = before ++ d.bytes ++ bytesOfAll rest := by
        rw [bytes, List.append_assoc]
        rfl
      have next : (before ++ d.bytes).length = before.length + d.size := by
        rw [List.length_append, d.length_bytes]
      rw [Routine.decodeFrom, if_neg (by omega),
        decodeAt_eq split (fits d List.mem_cons_self)]
      show r.decodeFrom fuel (before.length + d.size) _ = _
      rw [← next, ih split (by omega) (fun e member => fits e (List.mem_cons_of_mem d member))
        _ (by omega), next, instructionsFrom]
      simp

namespace Carries

variable {unit : Nat} {isGlobal : Bool} {r : Routine} {f : Function} {marked : List Marked}
  (carries : Carries unit isGlobal r f marked)

include carries

theorem bytes : r.code.toList = bytesOfAll (f.code r.constants unit isGlobal) := by
  rw [carries.code, markedBytes_eq, carries.directives]

theorem size : r.code.size = codeSize (f.code r.constants unit isGlobal) := by
  rw [← Array.length_toList, carries.bytes, length_bytesOfAll]

theorem split {p : Nat} {d : Directive}
    (stands : Stands (f.code r.constants unit isGlobal) p d) :
    ∃ before after, r.code.toList = before ++ d.bytes ++ after ∧ before.length = p := by
  obtain ⟨before, after, equal, rfl⟩ := stands
  refine ⟨bytesOfAll before, bytesOfAll after, ?_, length_bytesOfAll before⟩
  rw [carries.bytes, equal, bytesOfAll_append, List.append_assoc]
  rfl

theorem decodeAt {p : Nat} {d : Directive}
    (stands : Stands (f.code r.constants unit isGlobal) p d) :
    r.decodeAt p = .ok (d.instruction r.constants p) := by
  obtain ⟨before, after, code, rfl⟩ := carries.split stands
  exact decodeAt_eq code (carries.fits d stands.mem)

theorem instructions :
    r.instructions =
      ((instructionsFrom r.constants 0 (f.code r.constants unit isGlobal)).toArray, none) := by
  have bytes : r.code.toList = [] ++ bytesOfAll (f.code r.constants unit isGlobal) := carries.bytes
  have decoded := decodeFrom_eq bytes (Nat.le_of_eq carries.size.symm) carries.fits #[]
  rw [Array.empty_append] at decoded
  exact decoded

end Carries

theorem mem_instructionsFrom {pool : Pool} {code : List Directive} {p : Nat} {i : Instruction} :
    i ∈ instructionsFrom pool p code ↔ ∃ q d, Stands code q d ∧ i = d.instruction pool (p + q) := by
  induction code generalizing p with
  | nil => simp [instructionsFrom, Stands]
  | cons x rest ih =>
      rw [instructionsFrom, List.mem_cons, ih]
      constructor
      · rintro (rfl | ⟨q, d, stands, rfl⟩)
        · exact ⟨0, x, .head x rest, rfl⟩
        · exact ⟨x.size + q, d, by simpa [codeSize] using stands.append_left [x], by
            rw [Nat.add_assoc]⟩
      · rintro ⟨q, d, ⟨before, after, equal, sized⟩, rfl⟩
        cases before with
        | nil =>
            obtain ⟨rfl, -⟩ := List.cons.inj equal
            left
            rw [← sized]
            rfl
        | cons y before =>
            obtain ⟨rfl, rfl⟩ := List.cons.inj equal
            right
            refine ⟨codeSize before, d, ⟨before, after, rfl, rfl⟩, ?_⟩
            rw [← sized, codeSize, Nat.add_assoc]

end Reckoner.Script
