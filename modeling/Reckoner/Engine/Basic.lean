import Reckoner.Engine.Function
import Reckoner.Files.Tree
import Reckoner.Machine.Run

/-!
An engine evaluates sources for a host program. Its globals outlive an evaluation; nothing else
does. While an operation is in progress every other one is refused.
-/

namespace Reckoner

structure Engine where
  machine : Machine
  busy : Bool
  functions : Array HostFunction

namespace Engine

def new (maxFrames : Int) (world : World) : Engine :=
  { machine := Machine.new maxFrames world, busy := false, functions := #[] }

def boundCode : String := "bound"

def hostOf (functions : Array HostFunction) (reply : Except EngineError Unit) : Host :=
  fun n args =>
    if n.code == boundCode then
      match (functions[n.binding]?).bind HostFunction.handler with
      | some handler => (handler { values := args }).toAction reply
      | none => .fail (.plain ("native " ++ n.name ++ " has no handler"))
    else Host.standard n args

def acquire (e : Engine) : Except EngineError Engine :=
  if e.busy then .error .busy else .ok { e with busy := true }

def release (e : Engine) : Engine := { e with busy := false }

def reply (e : Engine) : Except EngineError Unit := e.acquire.map fun _ => ()

def host (e : Engine) : Host := hostOf e.functions e.reply

def during {α : Type} (e : Engine)
    (operation : Host → Machine → Except EngineError α × Machine) : Except EngineError α × Engine :=
  match e.acquire with
  | .error refusal => (.error refusal, e)
  | .ok held =>
    let (outcome, machine) := operation held.host held.machine
    (outcome, { held with machine }.release)

def runRoutine (fuel : Nat) (r : Routine) (host : Host) (m : Machine) :
    Except EngineError Value × Machine :=
  match m.interpret host fuel r with
  | .done _ m =>
    match m.pop with
    | .ok (v, m) => (.ok v, m)
    | .error cause => (.error (.fault (m.faultOf cause)), m)
  | .fault f m => (.error (.fault f), m)
  | .crash _ m | .exhausted m => (.error .exhausted, m)

def interpret (fuel : Nat) (source : String) (e : Engine) : Except EngineError Unit × Engine :=
  e.during fun host m =>
    match m.compileWith (compile · source) with
    | (.error ds, m) => (.error (.diagnostics ds), m.writeDiagnostics ds)
    | (.ok r, m) =>
      let (outcome, m) := runRoutine fuel r host m
      (outcome.map fun _ => (), m)

def loadFile (fuel : Nat) (files : Files) (directory path : String) (e : Engine) :
    Except FileFault (Except EngineError Unit) × Engine :=
  match files.read directory path with
  | .error fault => (.error fault, e)
  | .ok source =>
    let (outcome, e) := e.interpret fuel source
    (.ok outcome, e)

/-- The value of an expression; a script has the value false. A cancelled evaluation does not
start. -/
def evaluate (fuel : Nat) (cancelled : Bool) (source : String) (e : Engine) :
    Except EngineError Value × Engine :=
  e.during fun host m =>
    if cancelled then (.error .cancelled, m)
    else
      match m.compileWith (compileEither · source) with
      | (.error ds, m) => (.error (.diagnostics ds), m)
      | (.ok r, m) => runRoutine fuel r host m

def call (fuel : Nat) (cancelled : Bool) (name : String) (args : List Value) (e : Engine) :
    Except EngineError Value × Engine :=
  e.during fun host m =>
    if cancelled then (.error .cancelled, m)
    else
      match m.callGlobal host fuel name args with
      | .done v m => (.ok v, m)
      | .fault f m => (.error (.fault f), m)
      | .crash _ m | .exhausted m => (.error .exhausted, m)

def duplicate (e : Engine) : Except EngineError Engine × Engine :=
  let (outcome, after) := e.during fun _ m => (.ok m.duplicate, m)
  (outcome.map fun machine => { machine, busy := false, functions := e.functions }, after)

def listing (e : Engine) : Except EngineError String × Engine :=
  e.during fun _ m =>
    match m.listing with
    | (text, none) => (.ok text, m)
    | (_, some message) => (.error (.listing message), m)

def serve (fuel : Nat) : Request → Engine → Except EngineError Unit × Engine
  | .interpret source, e => e.interpret fuel source
  | .evaluate source, e =>
    let (outcome, e) := e.evaluate fuel false source
    (outcome.map fun _ => (), e)
  | .call name args, e =>
    let (outcome, e) := e.call fuel false name args
    (outcome.map fun _ => (), e)
  | .duplicate, e =>
    let (outcome, e) := e.duplicate
    (outcome.map fun _ => (), e)
  | .listing, e =>
    let (outcome, e) := e.listing
    (outcome.map fun _ => (), e)

def resultOf : Except EngineError Unit → Machine.Result
  | .ok _ => .success
  | .error (.diagnostics _) => .compileError
  | .error _ => .runtimeError

def bind (name : String) (f : HostFunction) (e : Engine) : Engine :=
  let native : Native :=
    { name, arity := f.arity, code := boundCode, binding := e.functions.size }
  { e with
    machine := e.machine.define name (.native native)
    functions := e.functions.push f }

def offer (name : String) (o : Offer) (e : Engine) : Except String Engine :=
  match o.toFunction with
  | .ok f => .ok (e.bind name f)
  | .error refusal => .error ("define " ++ name ++ ": " ++ refusal.message)

def hasFunction (e : Engine) (name : String) : Bool :=
  match e.machine.global? name with
  | some (.routine _) | some (.native _) => true
  | _ => false

def require : Option Engine → Except EngineError Engine
  | some e => .ok e
  | none => .error .missing

end Engine

end Reckoner
