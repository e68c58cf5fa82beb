import Reckoner.Journal.Entry

/-!
The journal of calculations. It lists entries by the time of their creation, the newest first, and
of entries of one time the one recorded last comes first.
-/

namespace Reckoner

/-- A kept entry. The number of a new row is the one after the greatest in use, so that the numbers
of removed rows can come back. -/
structure Row where
  number : Nat
  entry : Entry
  deriving Repr, DecidableEq, Inhabited

/-- The newest row comes first, and of rows of one time the one with the greatest number. -/
def Row.before (a b : Row) : Bool :=
  b.entry.created < a.entry.created ||
    (b.entry.created == a.entry.created && decide (b.number ≤ a.number))

/-- The rows, the one added last in front. -/
structure Journal where
  path : String
  rows : List Row
  closed : Bool
  deriving Repr, DecidableEq, Inhabited

inductive JournalError where
  | notFound
  | duplicate (id : String)
  | closed (activity : String)
  deriving Repr, DecidableEq, Inhabited

def JournalError.message : JournalError → String
  | .notFound => "history entry not found"
  | .duplicate id =>
    "saving entry " ++ id ++ ": constraint failed: UNIQUE constraint failed: entries.id (1555)"
  | .closed activity => activity ++ ": sql: database is closed"

namespace Journal

def new (path : String) : Journal := { path, rows := [], closed := false }

def memoryPath : String := ":memory:"

def close (j : Journal) : Journal := { j with closed := true }

def defaultLimit : Nat := 20

def selects (session : String) (e : Entry) : Bool := session.isEmpty || e.session == session

def nextNumber (j : Journal) : Nat := (j.rows.map Row.number).foldl max 0 + 1

def add (j : Journal) (e : Entry) : Except JournalError Journal :=
  if j.closed then .error (.closed ("saving entry " ++ e.id))
  else if j.rows.any fun other => other.entry.id == e.id then .error (.duplicate e.id)
  else .ok { j with rows := { number := j.nextNumber, entry := e.stored } :: j.rows }

def record (j : Journal) (ids : Identifiers) (e : Entry) :
    Except JournalError Entry × Journal × Identifiers :=
  let (id, ids) := if e.id.isEmpty then ids.next else (e.id, ids)
  let e := { e with id }
  match j.add e with
  | .ok j => (.ok e, j, ids)
  | .error fault => (.error fault, j, ids)

/-- Records an entry at a time, which counts unless the entry has a time of its own. -/
def save (j : Journal) (now : Int) (ids : Identifiers) (e : Entry) :
    Except JournalError Entry × Journal × Identifiers := j.record ids (e.timed now)

def listing (j : Journal) (session : String) : List Entry :=
  ((j.rows.filter fun row => selects session row.entry).mergeSort Row.before).map Row.entry

def recent (j : Journal) (session : String) (limit : Int) : Except JournalError (List Entry) :=
  if j.closed then .error (.closed "querying entries")
  else .ok ((j.listing session).take (if limit ≤ 0 then defaultLimit else limit.toNat))

def get (j : Journal) (id : String) : Except JournalError Entry :=
  if j.closed then .error (.closed "scanning entry")
  else
    match j.rows.find? fun row => row.entry.id == id with
    | some row => .ok row.entry
    | none => .error .notFound

def clear (j : Journal) (session : String) : Except JournalError (Nat × Journal) :=
  if j.closed then .error (.closed "clearing entries")
  else
    let kept := j.rows.filter fun row => !selects session row.entry
    .ok (j.rows.length - kept.length, { j with rows := kept })

end Journal

end Reckoner
