import Reckoner.Journal.Basic
import Reckoner.Prompt.Reading
import Reckoner.Text.Lines

/-!
The interactive prompt: it reads lines until one leaves or the input ends, evaluates each input as
soon as its braces are closed, and shows the value of expressions.
-/

namespace Reckoner

/-- A session at the prompt. The text in `pending` waits for more lines. -/
structure Prompt where
  machine : Machine
  greeting : String
  session : String
  now : Int
  pending : String
  shown : Array (Channel × String)
  journal : Option Journal
  ids : Identifiers

namespace Prompt

def defaultGreeting : String := "> "

def continuation : String := ". "

def lineLimit : Nat := 1024 * 1024

def lineTooLong : String := "bufio.Scanner: token too long"

def display (p : Prompt) (channel : Channel) (text : String) : Prompt :=
  { p with shown := p.shown.push (channel, text) }

def textOn (p : Prompt) (channel : Channel) : String :=
  p.shown.foldl (fun s (c, text) => if c = channel then s ++ text else s) ""

/-- The outcome of running what was read: the result, the value shown in the journal, and whether
it is shown at the prompt. -/
structure Evaluation where
  result : Machine.Result
  value : String
  mode : Mode

/-- Compiles and runs an input on the machine. The value is taken off the stack. -/
def evaluate (host : Host) (fuel : Nat) (source : String) (m : Machine) : Evaluation × Machine :=
  match m.compileWith (read · source) with
  | (.error ds, m) =>
    ({ result := .compileError, value := "", mode := .script }, m.writeDiagnostics ds)
  | (.ok (mode, r), m) =>
    match m.interpret host fuel r with
    | .done _ m =>
      match m.pop with
      | .ok (v, m) => ({ result := .success, value := v.display, mode }, m)
      | .error _ => ({ result := .success, value := "", mode }, m)
    | ending => ({ result := .runtimeError, value := "", mode }, ending.machine)

def record (p : Prompt) (source : String) (e : Evaluation) : Prompt :=
  match p.journal with
  | none => p
  | some journal =>
    let entry : Entry :=
      { id := "", session := p.session, source, status := .ofResult e.result, result := e.value
        transcript :=
          { output := some (Text.outputLines (p.machine.textOn .out))
            diagnostics := some (Text.outputLines (p.machine.textOn .err))
            instructions := p.machine.count
            duration := 0 }
        created := Entry.untimed }
    let (_, journal, ids) := journal.save p.now p.ids entry
    { p with journal := some journal, ids }

def enter (host : Host) (fuel : Nat) (source : String) (p : Prompt) : Prompt :=
  let source := Text.trim source
  let (e, machine) := evaluate host fuel source p.machine.clearWritten
  let p := { p with machine, shown := p.shown ++ machine.written }
  let p :=
    if e.result = .success ∧ e.mode = .expression then p.display .out ("  = " ++ e.value ++ "\n")
    else p
  p.record source e

inductive Command where
  | nothing
  | leave
  | globals
  | listing
  deriving Repr, DecidableEq, Inhabited

def command? (line : String) : Option Command :=
  match Text.trim line with
  | "" => some .nothing
  | "exit" | "quit" | ":q" => some .leave
  | ":globals" => some .globals
  | ":disasm" => some .listing
  | _ => none

/-- Takes a line that is no command: evaluates what is pending once its braces are closed. -/
def takeLine (host : Host) (fuel : Nat) (line : String) (p : Prompt) : Prompt :=
  let source := if p.pending.isEmpty then line else p.pending ++ "\n" ++ line
  if 0 < openBlocks source then { p with pending := source }
  else { p with pending := "" }.enter host fuel source

def feed (host : Host) (fuel : Nat) (line : String) (p : Prompt) : Prompt × Bool :=
  match if p.pending.isEmpty then command? line else none with
  | none => (p.takeLine host fuel line, true)
  | some .nothing => (p, true)
  | some .leave => (p, false)
  | some .globals => (p.display .out (" ".intercalate p.machine.globalNames ++ "\n"), true)
  | some .listing =>
    let (text, fault) := p.machine.listing
    let p := p.display .out text
    (match fault with
      | some message => p.display .err (message ++ "\n")
      | none => p, true)

def ask (p : Prompt) : Prompt :=
  p.display .out (if p.pending.isEmpty then p.greeting else continuation)

def readLines (host : Host) (fuel : Nat) : List String → Prompt → Prompt × Bool
  | [], p => (p.ask, true)
  | line :: rest, p =>
    match p.ask.feed host fuel line with
    | (p, true) => readLines host fuel rest p
    | (p, false) => (p, false)

def start (host : Host) (fuel : Nat) (banner input : String) (p : Prompt) :
    Prompt × Option String :=
  let p := { p with greeting := if p.greeting.isEmpty then defaultGreeting else p.greeting }
  let p := if banner.isEmpty then p else p.display .out (banner ++ "\n")
  let (lines, tooLong) := Text.inputLines lineLimit input
  let (p, ranOut) := p.readLines host fuel lines
  (p, if ranOut && tooLong then some lineTooLong else none)

end Prompt

end Reckoner
