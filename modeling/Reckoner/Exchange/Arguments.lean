import Reckoner.Decimal.Binary
import Reckoner.Machine.Fault

/-!
Typed access to the arguments of a host function.
-/

namespace Reckoner

structure Arguments where
  values : List Value

namespace Arguments

def size (a : Arguments) : Nat := a.values.length

def value (a : Arguments) (i : Int) : Except HostError Value :=
  if i < 0 then .error (.argument i "present" "")
  else
    match a.values[i.toNat]? with
    | some v => .ok v
    | none => .error (.argument i "present" "")

def decimal (a : Arguments) (i : Int) : Except HostError Decimal :=
  match a.value i with
  | .ok (.number d) => .ok d
  | .ok v => .error (.argument i "number" v.kindName)
  | .error e => .error e

def binary (a : Arguments) (i : Int) : Except HostError Binary :=
  match a.decimal i with
  | .ok d => d.toBinary.mapError fun f => .plain f.message
  | .error e => .error e

def bool (a : Arguments) (i : Int) : Except HostError Bool :=
  match a.value i with
  | .ok (.bool b) => .ok b
  | .ok v => .error (.argument i "bool" v.kindName)
  | .error e => .error e

def text (a : Arguments) (i : Int) : Except HostError String :=
  match a.value i with
  | .ok (.text s) => .ok s
  | .ok v => .error (.argument i "string" v.kindName)
  | .error e => .error e

end Arguments

end Reckoner
