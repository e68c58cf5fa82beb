import Reckoner.Compiler.Basic
import Reckoner.Machine.Step

/-!
Runs. A run starts with a script or with a global called by name; a fault is reported and leaves
the stack no higher than it was.
-/

namespace Reckoner.Machine

def run (host : Host) : (fuel : Nat) → Machine → Ending Unit
  | 0, m => .exhausted m
  | fuel + 1, m =>
    match m.step host with
    | .next m => run host fuel m
    | .finished m => .done () m
    | .fault f m => .fault f m
    | .crash reason m => .crash reason m
    | .exhausted m => .exhausted m

/-- Pushes values one by one; the machine after a failure keeps those that fit. -/
def pushAll (m : Machine) : List Value → Except Machine Machine
  | [] => .ok m
  | v :: rest =>
    match m.push v with
    | .ok m => m.pushAll rest
    | .error _ => .error m

def abandon (m : Machine) (f : Fault) (height : Nat) : Machine :=
  let m := m.write .err f.report
  { m with frames := [], stack := if height < m.height then m.stack.resize height else m.stack }

def prepare (m : Machine) : Machine := { m with frames := [], count := 0 }

mutual

def invoke (host : Host) : (fuel : Nat) → (callee : Value) → (args : List Value) → Machine →
    Ending Unit
  | 0, _, _, m => .exhausted m
  | fuel + 1, callee, args, m =>
    match m.pushAll (callee :: args) with
    | .error m => .fault (m.faultOf .stackFull) m
    | .ok m =>
      let perform (n : Native) (args : List Value) (m : Machine) : Ending Value :=
        (host n args).perform (callGlobal host fuel) (interpret host fuel) m
      match m.callValue perform callee args.length, callee with
      | .next m, .routine _ => m.run host fuel
      | .next m, _ => .done () m
      | .finished m, _ => .done () m
      | .fault f m, _ => .fault f m
      | .crash reason m, _ => .crash reason m
      | .exhausted m, _ => .exhausted m

/-- Calls a global by name. The stack is left as it was. -/
def callGlobal (host : Host) : (fuel : Nat) → (name : String) → (args : List Value) → Machine →
    Ending Value
  | 0, _, _, m => .exhausted m
  | fuel + 1, name, args, m =>
    if m.isRunning then .fault (m.faultOf .alreadyRunning) m
    else
      match m.global? name with
      | none => .fault (m.faultOf (.undefinedVariable name)) m
      | some callee =>
        match invoke host fuel callee args m.prepare with
        | .done _ after =>
          match after.pop with
          | .ok (v, after) => .done v after
          | .error cause => .crash cause.message after
        | .fault f after => .fault f (after.abandon f m.height)
        | .crash reason after => .crash reason after
        | .exhausted after => .exhausted after

def interpret (host : Host) : (fuel : Nat) → Routine → Machine → Ending Unit
  | 0, _, m => .exhausted m
  | fuel + 1, r, m =>
    if m.isRunning then .fault (m.faultOf .alreadyRunning) m
    else
      match invoke host fuel (.routine r) [] m.prepare with
      | .done _ after => .done () after
      | .fault f after => .fault f (after.abandon f m.height)
      | .crash reason after => .crash reason after
      | .exhausted after => .exhausted after

end

inductive Result where
  | success
  | compileError
  | runtimeError
  deriving Repr, DecidableEq, Inhabited

def Result.text : Result → String
  | .success => "success"
  | .compileError => "compile error"
  | .runtimeError => "runtime error"

def writeDiagnostics (m : Machine) (ds : List Diagnostic) : Machine :=
  ds.foldl (fun m d => m.write .err (d.text ++ "\n")) m

def compileWith {α : Type} (m : Machine) (f : Nat → Except (List Diagnostic) α) :
    Except (List Diagnostic) α × Machine :=
  let (unit, m) := m.freshUnit
  (f unit, m)

def interpretSource (host : Host) (fuel : Nat) (source : String) (m : Machine) : Ending Result :=
  match m.compileWith (compile · source) with
  | (.error ds, m) => .done .compileError (m.writeDiagnostics ds)
  | (.ok r, m) =>
    match m.interpret host fuel r with
    | .done _ m => .done .success m
    | .fault _ m => .done .runtimeError m
    | .crash reason m => .crash reason m
    | .exhausted m => .exhausted m

def listing (m : Machine) : String × Option String :=
  let step (state : Listing × Option String) (entry : String × Value) : Listing × Option String :=
    match state, entry with
    | (l, some message), _ => (l, some message)
    | (l, none), (name, .native n) => (l.native name n.arity, none)
    | (l, none), (name, .routine r) =>
      let (l, fault) := l.routine r
      (l, fault.map fun f => "disassemble " ++ name ++ ": " ++ f.message)
    | state, _ => state
  let (l, message) := m.globals.toList.foldl step ({}, none)
  (l.text, message)

end Reckoner.Machine
