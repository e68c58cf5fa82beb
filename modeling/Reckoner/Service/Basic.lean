import Reckoner.Journal.Basic
import Reckoner.Text.Lines

/-!
The evaluation service. Every session runs on its own copy of a template machine, so that sessions
see nothing of each other. A request that is answered by an error leaves no session behind.
-/

namespace Reckoner

structure Session where
  id : String
  machine : Machine
  lastUsed : Int

structure Service where
  base : Machine
  sessions : List Session
  journal : Option Journal
  ids : Identifiers

inductive ServiceError where
  | sourceRequired
  | diagnostics (ds : List Diagnostic)
  | sessionNotFound (id : String)
  | crashed (reason : String)
  | unreachable

namespace ServiceError

def code : ServiceError → String
  | .sourceRequired | .diagnostics _ => "invalid_argument"
  | .sessionNotFound _ => "not_found"
  | .crashed _ => "internal"
  | .unreachable => "unavailable"

def isInvalidArgument : ServiceError → Bool
  | .sourceRequired | .diagnostics _ => true
  | _ => false

def detail : ServiceError → String
  | .sourceRequired => "source is required"
  | .diagnostics ds => Diagnostic.report ds
  | .sessionNotFound id => "session " ++ Text.quote id ++ " not found"
  | .crashed reason => reason
  | .unreachable => "connection refused"

def message (e : ServiceError) : String := e.code ++ ": " ++ e.detail

end ServiceError

structure Answer where
  result : Machine.Result
  value : String
  output : List String
  diagnostics : List String
  instructions : Nat
  session : String
  id : String
  deriving Repr, DecidableEq, Inhabited

namespace Service

def new (base : Machine) (journal : Option Journal) (ids : Identifiers) : Service :=
  { base, sessions := [], journal, ids }

def session? (s : Service) (id : String) : Option Session :=
  s.sessions.find? fun session => session.id == id

def update (s : Service) (session : Session) : Service :=
  { s with sessions := s.sessions.map fun old => if old.id == session.id then session else old }

def create (s : Service) (now : Int) : Session × Service :=
  let (id, ids) := s.ids.next
  let session : Session := { id, machine := s.base.duplicate, lastUsed := now }
  (session, { s with sessions := session :: s.sessions, ids })

def sessionFor (s : Service) (now : Int) (id : String) : Option (Session × Service) :=
  if id.isEmpty then some (s.create now)
  else
    (s.session? id).map fun session =>
      let session := { session with lastUsed := now }
      (session, s.update session)

def record (s : Service) (now : Int) (source : String) (a : Answer) : Answer × Service :=
  match s.journal with
  | none => (a, s)
  | some journal =>
    let entry : Entry :=
      { id := "", session := a.session, source, status := .ofResult a.result, result := a.value
        transcript :=
          { output := some a.output, diagnostics := some a.diagnostics
            instructions := a.instructions, duration := 0 }
        created := Entry.untimed }
    let (outcome, journal, ids) := journal.save now s.ids entry
    let s := { s with journal := some journal, ids }
    match outcome with
    | .ok kept => ({ a with id := kept.id }, s)
    | .error _ => (a, s)

def run (host : Host) (fuel : Nat) (session : Session) (r : Routine) :
    Except String Answer × Session :=
  let finish (result : Machine.Result) (value : String) (m : Machine) :
      Except String Answer × Session :=
    (.ok
      { result, value
        output := Text.outputLines (m.textOn .out)
        diagnostics := Text.outputLines (m.textOn .err)
        instructions := m.count, session := session.id, id := "" },
      { session with machine := m })
  match session.machine.clearWritten.interpret host fuel r with
  | .done _ m =>
    match m.pop with
    | .ok (v, m) => finish .success v.display m
    | .error _ => finish .success "" m
  | .fault _ m => finish .runtimeError "" m
  | .crash reason m => (.error reason, { session with machine := m })
  | .exhausted m => (.error "out of steps", { session with machine := m })

def unitFor (s : Service) (id : String) : Nat :=
  ((s.session? id).map fun session => session.machine.units).getD s.base.units

/-- Evaluates a source in a session. Sources that do not compile are recorded too. -/
def evaluate (host : Host) (fuel : Nat) (now : Int) (source session : String) (s : Service) :
    Except ServiceError Answer × Service :=
  if Text.isAllBlank source then (.error .sourceRequired, s)
  else
    match compileEither (s.unitFor session) source with
    | .error ds =>
      let failed : Answer :=
        { result := .compileError, value := "", output := []
          diagnostics := ds.map Diagnostic.text, instructions := 0, session, id := "" }
      (.error (.diagnostics ds), (s.record now source failed).2)
    | .ok r =>
      match s.sessionFor now session with
      | none => (.error (.sessionNotFound session), s)
      | some (opened, s) =>
        let (outcome, after) := run host fuel opened r
        let machine := after.machine.freshUnit.2
        let s := s.update { after with machine }
        match outcome with
        | .error reason => (.error (.crashed reason), s)
        | .ok answer =>
          let (answer, s) := s.record now source answer
          (.ok answer, s)

def check (source : String) : Except ServiceError (List Diagnostic) :=
  if Text.isAllBlank source then .error .sourceRequired
  else
    match compileEither 0 source with
    | .ok _ => .ok []
    | .error ds => .ok ds

def sweep (now ttl : Int) (s : Service) : Nat × Service :=
  let kept := s.sessions.filter fun session => now - ttl ≤ session.lastUsed
  (s.sessions.length - kept.length, { s with sessions := kept })

def destroy (id : String) (s : Service) : Service :=
  { s with sessions := s.sessions.filter fun session => session.id != id }

end Service

end Reckoner
