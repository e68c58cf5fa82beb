import Reckoner.Benchmark.Measure
import Reckoner.Command.Address
import Reckoner.Command.Flags
import Reckoner.Command.Workspace
import Reckoner.Engine.Basic
import Reckoner.Prompt.Basic
import Reckoner.Text.Age

/-!
The commands. A command is a function of its surroundings, the settings and its arguments; it
answers with an exit code and with what it wrote.
-/

namespace Reckoner.Command

structure Outcome where
  code : Nat
  out : String
  err : String
  deriving Repr, DecidableEq, Inhabited

namespace Outcome

def success : Nat := 0

def failure : Nat := 1

def usage : Nat := 64

def refused : Nat := 65

def faulted : Nat := 70

def codeOf : Machine.Result → Nat
  | .success => success
  | .compileError => refused
  | .runtimeError => faulted

def complain (code : Nat) (message : String) : Outcome :=
  { code, out := "", err := message ++ "\n" }

def quiet : Outcome := { code := success, out := "", err := "" }

end Outcome

def runFile (fuel : Nat) (settings : Settings) (args : List String) (ws : Workspace) : Outcome :=
  match args with
  | [path] =>
    match ws.files.read ws.current path with
    | .error fault => .complain Outcome.failure fault.message
    | .ok source =>
      let ending :=
        (Machine.new settings.maxFrames ws.world).interpretSource Host.standard fuel source
      let code :=
        match ending with
        | .done result _ => Outcome.codeOf result
        | _ => Outcome.faulted
      { code, out := ending.machine.textOn .out, err := ending.machine.textOn .err }
  | _ => .complain Outcome.usage "usage: speedcalc run FILE"

def recordEntry (settings : Settings) (entry : Entry) (ws : Workspace) : Workspace :=
  match ws.openHistory settings with
  | (none, ws) => ws
  | (some j, ws) =>
    let (_, journal, ids) := j.journal.save ws.now ws.ids entry
    { ws with ids }.keep { j with journal }

def entrySession : String := "cli"

def evaluate (fuel : Nat) (settings : Settings) (args : List String) (ws : Workspace) :
    Outcome × Workspace :=
  let source := " ".intercalate args
  if Text.isAllBlank source then
    (.complain Outcome.usage "usage: speedcalc eval EXPR", ws)
  else
    let (answer, engine) := (Engine.new settings.maxFrames ws.world).evaluate fuel false source
    let out := engine.machine.textOn .out
    let err := engine.machine.textOn .err
    let entry (result : Machine.Result) (value : String) (diagnostics : Option (List String)) :
        Entry :=
      { id := "", session := entrySession, source, status := .ofResult result, result := value
        transcript :=
          { output := none, diagnostics, instructions := engine.machine.count, duration := 0 }
        created := Entry.untimed }
    match answer with
    | .ok v =>
      ({ code := Outcome.success, out := out ++ v.display ++ "\n", err },
        recordEntry settings (entry .success v.display none) ws)
    | .error (.diagnostics ds) =>
      let report := Diagnostic.report ds
      ({ code := Outcome.refused, out, err := err ++ report ++ "\n" },
        recordEntry settings (entry .compileError "" (some (Text.cut '\n' report))) ws)
    | .error (.fault f) =>
      ({ code := Outcome.faulted, out, err },
        recordEntry settings (entry .runtimeError "" (some [f.message])) ws)
    | .error other =>
      ({ code := Outcome.failure, out, err := err ++ other.message ++ "\n" }, ws)

def list (args : List String) (ws : Workspace) : Outcome :=
  match args with
  | [path] =>
    match ws.files.read ws.current path with
    | .error fault => .complain Outcome.failure fault.message
    | .ok source =>
      match compile 0 source with
      | .error ds => .complain Outcome.refused (Diagnostic.report ds)
      | .ok r =>
        match ({} : Listing).routine r with
        | (l, none) => { code := Outcome.success, out := l.text, err := "" }
        | (l, some fault) =>
          { code := Outcome.failure, out := l.text, err := fault.message ++ "\n" }
  | _ => .complain Outcome.usage "usage: speedcalc disasm FILE"

def banner : String := "SpeedCalc REPL | type 'exit' to quit"

def interact (fuel : Nat) (settings : Settings) (input : String) (ws : Workspace) :
    Outcome × Workspace :=
  let (session, ids) := ws.ids.next
  let (history, ws) := { ws with ids }.openHistory settings
  let p : Prompt :=
    { machine := .new settings.maxFrames ws.world, greeting := "", session, now := ws.now
      pending := "", shown := #[], journal := history.map fun j => j.journal, ids := ws.ids }
  let (p, fault) := p.start Host.standard fuel banner input
  let ws := { ws with ids := p.ids }
  let ws :=
    match history, p.journal with
    | some j, some journal => ws.keep { j with journal }
    | _, _ => ws
  let out := p.textOn .out
  let err := p.textOn .err
  match fault with
  | none => ({ code := Outcome.success, out, err }, ws)
  | some message => ({ code := Outcome.failure, out, err := err ++ message ++ "\n" }, ws)

def refuse (name : String) (flags : List Flag) (e : FlagError) : Outcome :=
  { code := Outcome.usage, out := ""
    err :=
      (match e.message? with
        | some message => message ++ "\n"
        | none => "") ++ "Usage of " ++ name ++ ":\n" ++ flagUsage flags }

def benchFlags : List Flag :=
  [{ name := "runs", value := .integer Benchmark.defaultRuns, help := "Timed runs per benchmark" },
    { name := "scale", value := .real (Binary.ofInt 1), help := "Multiplier for loop counts" },
    { name := "only", value := .text "", help := "Run a single benchmark by name" }]

def benchAll (fuel : Nat) (world : World) (scale : Binary) (runs : Int) :
    (measured : List Measurement) → (err : String) → List Benchmark → Outcome
  | measured, err, [] =>
    { code := Outcome.success, out := Benchmark.report measured.reverse, err }
  | measured, err, b :: rest =>
    let err := err ++ "running " ++ b.category ++ "/" ++ b.name ++ "...\n"
    match b.measure fuel world scale runs with
    | .ok m => benchAll fuel world scale runs (m :: measured) err rest
    | .error message => { code := Outcome.failure, out := "", err := err ++ message ++ "\n" }

def bench (fuel : Nat) (args : List String) (ws : Workspace) : Outcome :=
  match readFlags benchFlags args with
  | .error e => refuse "bench" benchFlags e
  | .ok (flags, _) =>
    let only := textFlag flags "only"
    let run := benchAll fuel ws.world (realFlag flags "scale") (integerFlag flags "runs") [] ""
    if only.isEmpty then run Benchmark.ordered
    else
      match Benchmark.find? only with
      | some b => run [b]
      | none => .complain Outcome.usage ("unknown benchmark " ++ Text.quote only)

def historyFlags : List Flag :=
  [{ name := "n", value := .integer Journal.defaultLimit, help := "Number of entries to show" },
    { name := "session", value := .text "", help := "Only show entries of this session" },
    { name := "clear", value := .toggle false, help := "Delete the selected entries" }]

def ageWidth : Nat := 14

def entryLine (now : Int) (e : Entry) : String :=
  let source := e.source.map fun c => if c == '\n' then ' ' else c
  Text.padRight ageWidth (Text.age now e.created) ++ " " ++ source
    ++ (if e.status = .success then "  = " ++ e.result else "  (" ++ e.status.text ++ ")") ++ "\n"

def history (settings : Settings) (args : List String) (ws : Workspace) : Outcome × Workspace :=
  match readFlags historyFlags args with
  | .error e => (refuse "history" historyFlags e, ws)
  | .ok (flags, _) =>
    if !settings.historyEnabled then
      (.complain Outcome.failure "history is disabled in the configuration", ws)
    else
      match ws.openJournal settings.historyPath with
      | .error message => (.complain Outcome.failure message, ws)
      | .ok (j, ws) =>
        let session := textFlag flags "session"
        if toggleFlag flags "clear" then
          match j.journal.clear session with
          | .error e => (.complain Outcome.failure e.message, ws)
          | .ok (n, journal) =>
            ({ Outcome.quiet with out := "removed " ++ Text.natural n ++ " entries\n" },
              ws.keep { j with journal })
        else
          match j.journal.recent session (integerFlag flags "n") with
          | .error e => (.complain Outcome.failure e.message, ws)
          | .ok entries =>
            ({ Outcome.quiet with out := String.join (entries.reverse.map (entryLine ws.now)) },
              ws.keep j)

def serveFlags (settings : Settings) : List Flag :=
  [{ name := "addr", value := .text settings.address, help := "RPC listen address" },
    { name := "lsp-addr", value := .text settings.editorAddress
      help := "Language server TCP address (empty: disabled)" }]

/-- Checks the addresses of the servers. With good ones it stays silent until it is told to
stop. -/
def serve (settings : Settings) (args : List String) (ws : Workspace) : Outcome × Workspace :=
  match readFlags (serveFlags settings) args with
  | .error e => (refuse "serve" (serveFlags settings) e, ws)
  | .ok (flags, _) =>
    let ws := (ws.openHistory settings).2
    let editor := textFlag flags "lsp-addr"
    let fault :=
      addressFault (textFlag flags "addr") <|>
        (if editor.isEmpty then none else addressFault editor)
    match fault with
    | some e => (.complain Outcome.failure e.message, ws)
    | none => (.quiet, ws)

def remoteFlags (settings : Settings) : List Flag :=
  [{ name := "addr", value := .text ("http://" ++ settings.address), help := "Server base URL" },
    { name := "session", value := .text ""
      help := "Session to evaluate in (empty: new session)" }]

def send (fuel : Nat) (source session : String) (ws : Workspace) :
    Except ServiceError Answer × Workspace :=
  match ws.service with
  | none => (.error .unreachable, ws)
  | some s =>
    let (answer, s) := { s with ids := ws.ids }.evaluate Host.standard fuel ws.now source session
    (answer, { ws with service := some s, ids := s.ids })

def lines (ls : List String) : String := String.join (ls.map fun line => line ++ "\n")

def remote (fuel : Nat) (settings : Settings) (args : List String) (ws : Workspace) :
    Outcome × Workspace :=
  match readFlags (remoteFlags settings) args with
  | .error e => (refuse "remote" (remoteFlags settings) e, ws)
  | .ok (flags, operands) =>
    let source := " ".intercalate operands
    let session := textFlag flags "session"
    if Text.isAllBlank source then
      (.complain Outcome.usage "usage: speedcalc remote [-addr URL] [-session ID] EXPR", ws)
    else
      match send fuel source session ws with
      | (.error e, ws) =>
        (.complain (if e.isInvalidArgument then Outcome.refused else Outcome.failure) e.message, ws)
      | (.ok a, ws) =>
        let out := lines a.output
        let err := lines a.diagnostics
          ++ (if session.isEmpty then "session " ++ a.session ++ "\n" else "")
        match a.result with
        | .success => ({ code := Outcome.success, out := out ++ a.value ++ "\n", err }, ws)
        | .runtimeError => ({ code := Outcome.faulted, out, err }, ws)
        | .compileError => ({ code := Outcome.failure, out, err }, ws)

end Reckoner.Command
