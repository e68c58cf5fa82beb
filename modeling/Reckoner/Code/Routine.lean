import Reckoner.Code.Operation
import Reckoner.Decimal.Display

/-!
Compiled routines: code bytes, a source line for each of them, and a pool of constants. A routine
can be a constant of another one. Two routines are the same only if they have the same identity,
however alike they are.
-/

namespace Reckoner

/-- Tells compiled routines apart: the compilation they come from, and their number in it. -/
structure Identity where
  unit : Nat
  index : Nat
  deriving Repr, DecidableEq, Inhabited

mutual

/-- An entry of a constant pool. Foreign payloads are carried along and never understood. -/
inductive Constant where
  | number (value : Decimal)
  | text (value : String)
  | bool (value : Bool)
  | routine (value : Routine)
  | foreign

structure Routine where
  identity : Identity
  name : String
  arity : Int
  code : Array UInt8
  lines : Array Int
  constants : Array Constant

end

instance : Inhabited Constant := ⟨.foreign⟩

namespace Routine

def empty (identity : Identity) (name : String) : Routine :=
  { identity, name, arity := 0, code := #[], lines := #[], constants := #[] }

instance : Inhabited Routine := ⟨empty default ""⟩

def display (r : Routine) : String :=
  if r.name.isEmpty then "<script>" else "<fn " ++ r.name ++ " '" ++ Text.integer r.arity ++ ">"

def write (r : Routine) (line : Int) (b : UInt8) : Routine :=
  { r with code := r.code.push b, lines := r.lines.push line }

def writeAll (r : Routine) (line : Int) (bytes : List UInt8) : Routine :=
  bytes.foldl (fun r b => r.write line b) r

def lineAt (r : Routine) (offset : Int) : Int :=
  if offset < 0 then 0 else (r.lines[offset.toNat]?).getD 0

end Routine

namespace Constant

/-- Equality in a pool: numbers by value, routines by identity, foreign payloads never. -/
def same : Constant → Constant → Bool
  | .number a, .number b => a.same b
  | .text a, .text b => a == b
  | .bool a, .bool b => a == b
  | .routine a, .routine b => a.identity == b.identity
  | _, _ => false

def display : Constant → String
  | .number d => d.display
  | .text s => Text.quote s
  | .bool b => if b then "true" else "false"
  | .routine r => r.display
  | .foreign => "<unknown>"

end Constant

/-- Stores a constant and gives its index. A constant equal to an earlier one shares its entry. -/
def Routine.addConstant (r : Routine) (c : Constant) : Routine × Nat :=
  match r.constants.findIdx? (fun old => old.same c) with
  | some i => (r, i)
  | none => ({ r with constants := r.constants.push c }, r.constants.size)

end Reckoner
