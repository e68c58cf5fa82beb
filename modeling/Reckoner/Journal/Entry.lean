import Reckoner.Machine.Run
import Reckoner.Text.Quoted

/-!
Entries of the journal of calculations.
-/

namespace Reckoner

/-- How an evaluation ended. Codes beyond those of a result have no name. -/
structure Status where
  code : Int
  deriving Repr, DecidableEq, Inhabited

namespace Status

def success : Status := ⟨0⟩

def compileError : Status := ⟨1⟩

def runtimeError : Status := ⟨2⟩

def ofResult : Machine.Result → Status
  | .success => success
  | .compileError => compileError
  | .runtimeError => runtimeError

def text (s : Status) : String :=
  if s = success then Machine.Result.success.text
  else if s = compileError then Machine.Result.compileError.text
  else if s = runtimeError then Machine.Result.runtimeError.text
  else "unknown"

end Status

structure Transcript where
  output : Option (List String)
  diagnostics : Option (List String)
  instructions : Int
  duration : Int
  deriving Repr, DecidableEq, Inhabited

/-- The transcript as it is kept: an empty list is not kept at all. -/
def Transcript.stored (t : Transcript) : Transcript :=
  { t with
    output := t.output.filter fun lines => !lines.isEmpty
    diagnostics := t.diagnostics.filter fun lines => !lines.isEmpty }

/-- One recorded evaluation. Times are in nanoseconds. -/
structure Entry where
  id : String
  session : String
  source : String
  status : Status
  result : String
  transcript : Transcript
  created : Int
  deriving Repr, DecidableEq, Inhabited

/-- The time of an entry to which none was given: the first instant of the first year. -/
def Entry.untimed : Int := -62135596800000000000

def Entry.timed (now : Int) (e : Entry) : Entry :=
  if e.created = untimed then { e with created := now } else e

@[simp] theorem Entry.timed_id (now : Int) (e : Entry) : (e.timed now).id = e.id := by
  rw [timed]
  split <;> rfl

def Entry.stored (e : Entry) : Entry := { e with transcript := e.transcript.stored }

structure Identifiers where
  issued : Nat
  deriving Repr, DecidableEq, Inhabited

def Identifiers.next (ids : Identifiers) : String × Identifiers :=
  let n := ids.issued + 1
  ("00000000-0000-4000-8000-" ++ String.ofList (Text.hexadecimal 12 n), { issued := n })

end Reckoner
