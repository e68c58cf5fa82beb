import Reckoner.Exchange.Datum
import Reckoner.Exchange.IntegerType

/-!
Values of scripts on their way into variables of a host program. A conversion either gives what the
variable then holds, or fails and leaves it alone.
-/

namespace Reckoner

/-- The type of a host variable. A `restricted` variable takes no value, whatever its kind. -/
inductive Target where
  | bool
  | text
  | integer (t : IntegerType)
  | single
  | double
  | decimal
  | value
  | any
  | restricted (typeName : String)
  | unsupported (typeName : String)
  deriving Repr, DecidableEq, Inhabited

inductive ConversionError where
  | missingTarget
  | notPointer
  | mismatch (want got : String)
  | notInteger (text : String)
  | notUnsigned (text : String)
  | overflow (n : Int) (typeName : String)
  | binary (fault : BinaryFault)
  | notConvertible (kind : String)
  | notAssignable (source target : String)
  | unsupportedTarget (typeName : String)
  deriving Repr, DecidableEq, Inhabited

def ConversionError.message : ConversionError → String
  | .missingTarget => "nil target"
  | .notPointer => "target must be a non-nil pointer"
  | .mismatch want got => "want " ++ want ++ ", got " ++ got
  | .notInteger text => "number " ++ text ++ " is not an integer"
  | .notUnsigned text => "number " ++ text ++ " is not an unsigned integer"
  | .overflow n typeName => "number " ++ Text.integer n ++ " overflows " ++ typeName
  | .binary fault => fault.message
  | .notConvertible kind => "cannot convert " ++ kind ++ " to a Go value"
  | .notAssignable source target => "cannot assign " ++ source ++ " to " ++ target
  | .unsupportedTarget typeName => "unsupported target type " ++ typeName

namespace Value

def raw : Value → Except ConversionError Datum
  | .bool b => .ok (.bool b)
  | .number d => .ok (.decimal d)
  | .text s => .ok (.text s)
  | v => .error (.notConvertible v.kindName)

def rawTypeName : Value → String
  | .bool _ => "bool"
  | .number _ => "*apd.Decimal"
  | .text _ => "string"
  | v => v.kindName

/-- An integer that fits 64 bits with a sign. A coefficient below zero is not held against the
range, unless the exponent takes it past nineteen digits: its low 64 bits count. -/
def wordInteger? (d : Decimal) : Option Int :=
  if d.coefficient < 0 && (d.exponent ≤ 0 || d.adjusted < 19) then
    d.integer?.map fun n => n.bmod 0x10000000000000000
  else d.integer?.filter IntegerType.int64.contains

/-- A number in an integer variable. Unsigned variables take nothing beyond the greatest signed
integer either. -/
def toInteger (t : IntegerType) (d : Decimal) : Except ConversionError Int :=
  match wordInteger? d with
  | none => .error (if t.signed then .notInteger d.display else .notUnsigned d.display)
  | some n =>
    if !t.signed && n < 0 then .error (.notUnsigned d.display)
    else if t.contains n then .ok n
    else .error (.overflow n t.name)

def convert (v : Value) (target : Target) : Except ConversionError Datum :=
  match target, v with
  | .value, v => .ok (.value v)
  | .decimal, .number d => .ok (.decimal d)
  | .bool, .bool b => .ok (.bool b)
  | .text, .text s => .ok (.text s)
  | .integer t, .number d => (toInteger t d).map .integer
  | .single, .number d => (d.toBinary.mapError .binary).map fun b => .binary b.toSingle
  | .double, .number d => (d.toBinary.mapError .binary).map .binary
  | .any, v => v.raw
  | .restricted typeName, v => do
    let _ ← v.raw
    .error (.notAssignable v.rawTypeName typeName)
  | .unsupported typeName, _ => .error (.unsupportedTarget typeName)
  | .bool, v => .error (.mismatch "bool" v.kindName)
  | .text, v => .error (.mismatch "string" v.kindName)
  | _, v => .error (.mismatch "number" v.kindName)

end Value

structure HostVariable where
  target : Target
  contents : Datum

inductive Destination where
  | missing
  | notPointer
  | slot (s : HostVariable)

/-- Assigns a value. After a failure the variable holds what it held. -/
def Destination.assign (v : Value) : Destination → Destination × Option ConversionError
  | .missing => (.missing, some .missingTarget)
  | .notPointer => (.notPointer, some .notPointer)
  | .slot s =>
    match v.convert s.target with
    | .ok contents => (.slot { s with contents }, none)
    | .error e => (.slot s, some e)

end Reckoner
