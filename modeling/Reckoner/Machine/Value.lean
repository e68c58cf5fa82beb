import Reckoner.Code.Routine

/-!
Values that scripts compute with. Only false and zero count as false.
-/

namespace Reckoner

/-- A host function as scripts see it: a name, a fixed number of arguments, the host code that
runs, and what that code was bound with. -/
structure Native where
  name : String
  arity : Int
  code : String
  binding : Nat
  deriving Repr, DecidableEq, Inhabited

/-- Natives are the same callable when name, arity and code agree, whatever they are bound with. -/
def Native.same (a b : Native) : Bool := a.name == b.name && a.arity == b.arity && a.code == b.code

inductive Value where
  | bool (value : Bool)
  | number (value : Decimal)
  | text (value : String)
  | routine (value : Routine)
  | native (value : Native)
  | foreign

namespace Value

instance : Inhabited Value := ⟨.bool false⟩

def kindName : Value → String
  | .bool _ => "bool"
  | .number _ => "number"
  | .text _ => "string"
  | .routine _ => "function"
  | .native _ => "native"
  | .foreign => "unknown"

def truthy : Value → Bool
  | .bool b => b
  | .number d => !d.isZero
  | _ => true

def falsey (v : Value) : Bool := !v.truthy

def same : Value → Value → Bool
  | .bool a, .bool b => a == b
  | .number a, .number b => a.same b
  | .text a, .text b => a == b
  | .routine a, .routine b => a.identity == b.identity
  | .native a, .native b => a.same b
  | _, _ => false

def display : Value → String
  | .bool b => if b then "true" else "false"
  | .number d => d.display
  | .text s => s
  | .routine r => r.display
  | .native n => "<native " ++ n.name ++ ">"
  | .foreign => "<unknown>"

def ofConstant? : Constant → Option Value
  | .number d => some (.number d)
  | .text s => some (.text s)
  | .bool b => some (.bool b)
  | .routine r => some (.routine r)
  | .foreign => none

end Value

end Reckoner
