import Reckoner.Decimal.Power
import Reckoner.Machine.Host

/-!
One instruction. A step continues, ends the outermost call, raises a fault, or leaves the code and
crashes the machine.
-/

namespace Reckoner

inductive Step where
  | next (m : Machine)
  | finished (m : Machine)
  | fault (f : Fault) (m : Machine)
  | crash (reason : String) (m : Machine)
  | exhausted (m : Machine)

namespace Machine

def noCall : String := "no call in progress"

def endOfCode : String := "code out of range"

def badConstant : String := "constant out of range"

def badName : String := "name out of range"

def badSlot : String := "slot out of range"

def raise (m : Machine) (cause : Cause) : Step := .fault (m.faultOf cause) m

@[inline] def pushOn (m : Machine) (v : Value) : Step :=
  match m.push v with
  | .ok m => .next m
  | .error cause => m.raise cause

@[inline] def popThen (m : Machine) (next : Value → Machine → Step) : Step :=
  match m.pop with
  | .ok (v, m) => next v m
  | .error cause => m.raise cause

@[inline] def peekThen (m : Machine) (distance : Nat) (next : Value → Step) : Step :=
  match m.peek distance with
  | .ok v => next v
  | .error cause => m.raise cause

def dropOn (m : Machine) (n : Nat) : Step :=
  if n ≤ m.height then .next { m with stack := m.stack.resize (m.height - n) }
  else m.raise .stackEmpty

@[inline] def twoNumbers (m : Machine) (next : Decimal → Decimal → Step) : Step :=
  m.peekThen 0 fun b => m.peekThen 1 fun a =>
    match a, b with
    | .number x, .number y => next x y
    | _, _ => m.raise .operandsNotNumbers

def replaceTwo (m : Machine) (v : Value) : Step :=
  { m with stack := m.stack.resize (m.height - 2) }.pushOn v

def arithmetic (m : Machine) (f : Decimal → Decimal → Except ArithmeticError Decimal) : Step :=
  m.twoNumbers fun x y =>
    match f x y with
    | .ok d => m.replaceTwo (.number d)
    | .error e => m.raise (.arithmetic e)

def enter (m : Machine) (r : Routine) (count : Nat) : Step :=
  if r.arity ≠ count then m.raise (.arity r.arity count)
  else if m.maxFrames ≤ m.frames.length then m.raise .callDepth
  else
    let frame : Frame := { routine := r, ip := 0, base := m.height - count - 1, last := 0 }
    .next { m with frames := frame :: m.frames }

def callNative (m : Machine) (perform : Native → List Value → Machine → Ending Value) (n : Native)
    (count : Nat) : Step :=
  if n.arity ≠ count then m.raise (.arity n.arity count)
  else
    let top := m.height
    match perform n (m.stack.top count) m with
    | .done v m => { m with stack := m.stack.resize (top - count - 1) }.pushOn v
    | .fault f m => .fault f m
    | .crash reason m => .crash reason m
    | .exhausted m => .exhausted m

def callValue (m : Machine) (perform : Native → List Value → Machine → Ending Value)
    (callee : Value) (count : Nat) : Step :=
  match callee with
  | .routine r => m.enter r count
  | .native n => m.callNative perform n count
  | _ => m.raise .notCallable

/-- Serves a native while a run is in progress: calls back into the machine are refused. -/
def performBusy (host : Host) (n : Native) (args : List Value) (m : Machine) : Ending Value :=
  (host n args).perform (fun _ _ m => .fault (m.faultOf .alreadyRunning) m)
    (fun _ m => .fault (m.faultOf .alreadyRunning) m) m

def jumpBy (m : Machine) (distance : Int) : Machine :=
  match m.frames with
  | [] => m
  | frame :: rest => { m with frames := { frame with ip := frame.ip + distance } :: rest }

def leave (m : Machine) : Step :=
  m.popThen fun result m =>
    match m.frames with
    | [] => .crash noCall m
    | frame :: rest =>
      match { m with frames := rest, stack := m.stack.resize frame.base }.pushOn result with
      | .next m => if m.isRunning then .next m else .finished m
      | other => other

def nameAt? (r : Routine) (index : Nat) : Option String :=
  match r.constants[index]? with
  | some (.text name) => some name
  | _ => none

def execute (host : Host) (m : Machine) (frame : Frame) (op : Operation) (operand : Nat) : Step :=
  match op with
  | .true => m.pushOn (.bool true)
  | .false => m.pushOn (.bool false)
  | .constant =>
    match (frame.routine.constants[operand]?).bind Value.ofConstant? with
    | some v => m.pushOn v
    | none => .crash badConstant m
  | .pop => m.popThen fun _ m => .next m
  | .popN => m.dropOn operand
  | .loadGlobal =>
    match nameAt? frame.routine operand with
    | none => .crash badName m
    | some name =>
      match m.global? name with
      | some v => m.pushOn v
      | none => m.raise (.undefinedVariable name)
  | .assignGlobal =>
    match nameAt? frame.routine operand with
    | none => .crash badName m
    | some name =>
      match m.global? name with
      | some _ => m.peekThen 0 fun v => .next (m.define name v)
      | none => m.raise (.undefinedVariable name)
  | .defineGlobal =>
    match nameAt? frame.routine operand with
    | none => .crash badName m
    | some name => m.popThen fun v m => .next (m.define name v)
  | .loadLocal =>
    match m.stack.get? (frame.base + operand) with
    | some v => m.pushOn v
    | none => .crash badSlot m
  | .assignLocal =>
    m.peekThen 0 fun v =>
      if frame.base + operand < m.height then
        .next { m with stack := m.stack.set (frame.base + operand) v }
      else .crash badSlot m
  | .equal => m.popThen fun b m => m.popThen fun a m => m.pushOn (.bool (a.same b))
  | .greater => m.twoNumbers fun x y => m.replaceTwo (.bool (x.compare y == .gt))
  | .less => m.twoNumbers fun x y => m.replaceTwo (.bool (x.compare y == .lt))
  | .add => m.arithmetic Decimal.add
  | .subtract => m.arithmetic Decimal.sub
  | .multiply => m.arithmetic Decimal.mul
  | .divide => m.arithmetic Decimal.quo
  | .exponent => m.arithmetic Decimal.pow
  | .modulo => m.arithmetic Decimal.rem
  | .negate =>
    m.peekThen 0 fun v =>
      match v with
      | .number d => .next { m with stack := m.stack.set (m.height - 1) (.number d.negate) }
      | _ => m.raise .operandNotNumber
  | .not => m.popThen fun v m => m.pushOn (.bool v.falsey)
  | .print => m.popThen fun v m => .next (m.write .out (v.display ++ "\n"))
  | .jump => .next (m.jumpBy operand)
  | .jumpIfFalse =>
    m.peekThen 0 fun v => .next (if v.falsey then m.jumpBy operand else m)
  | .loop => .next (m.jumpBy (-operand))
  | .call => m.peekThen operand fun callee => m.callValue (performBusy host) callee operand
  | .return => m.leave

def byteAt? (r : Routine) (offset : Int) : Option UInt8 :=
  if offset < 0 then none else r.code[offset.toNat]?

def noteTrace (m : Machine) (frame : Frame) (b : UInt8) : Machine :=
  match m.trace with
  | none => m
  | some entries =>
    let entry : TraceEntry :=
      { byte := b, routine := frame.routine.display, line := frame.routine.lineAt frame.last,
        offset := frame.last, depth := m.frames.length }
    { m with trace := some (entries.push entry) }

def step (host : Host) (m : Machine) : Step :=
  match m.frames with
  | [] => .crash noCall m
  | frame :: rest =>
    let frame := { frame with last := frame.ip }
    match byteAt? frame.routine frame.ip with
    | none => .crash endOfCode { m with frames := frame :: rest }
    | some b =>
      let m := { m with count := m.count + 1 }.noteTrace frame b
      match Operation.ofByte? b with
      | none =>
        { m with frames := { frame with ip := frame.ip + 1 } :: rest }.raise (.unknownOperation b)
      | some op =>
        let width := op.operand.width
        match frame.routine.operandAt? (frame.ip.toNat + 1) width with
        | none => .crash endOfCode { m with frames := frame :: rest }
        | some operand =>
          let frame := { frame with ip := frame.ip + 1 + width }
          execute host { m with frames := frame :: rest } frame op operand

end Machine

end Reckoner
