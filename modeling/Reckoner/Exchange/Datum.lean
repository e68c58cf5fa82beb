import Reckoner.Decimal.Binary
import Reckoner.Machine.Value

/-!
Data of a host program on its way into a script.
-/

namespace Reckoner

/-- A datum as the host holds it. A `custom` datum brings its own conversion, and of a datum that
no script can hold only the name of its type is kept. -/
inductive Datum where
  | missing
  | value (v : Value)
  | custom (answer : Except String Value)
  | bool (b : Bool)
  | text (s : String)
  | decimal (d : Decimal)
  | missingDecimal
  | integer (n : Int)
  | binary (b : Binary)
  | pointer (target : Datum)
  | missingPointer
  | other (typeName : String)

instance : Inhabited Datum := ⟨.missing⟩

inductive MarshalError where
  | missing
  | missingDecimal
  | missingPointer
  | unsupported (typeName : String)
  | custom (message : String)
  deriving Repr, DecidableEq, Inhabited

def MarshalError.message : MarshalError → String
  | .missing => "cannot marshal nil"
  | .missingDecimal => "cannot marshal nil decimal"
  | .missingPointer => "cannot marshal nil pointer"
  | .unsupported typeName => "unsupported type " ++ typeName
  | .custom message => message

/-- The value of a datum. Pointers are followed, and numbers of every type become decimals. -/
def Datum.toValue : Datum → Except MarshalError Value
  | .missing => .error .missing
  | .value v => .ok v
  | .custom (.ok v) => .ok v
  | .custom (.error message) => .error (.custom message)
  | .bool b => .ok (.bool b)
  | .text s => .ok (.text s)
  | .decimal d => .ok (.number d)
  | .missingDecimal => .error .missingDecimal
  | .integer n => .ok (.number (.ofInt n))
  | .binary b => .ok (.number (.ofBinary b))
  | .pointer target => target.toValue
  | .missingPointer => .error .missingPointer
  | .other typeName => .error (.unsupported typeName)

end Reckoner
