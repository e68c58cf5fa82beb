import Reckoner.Code.Instruction

/-!
Listings: a readable dump of routines, one line for each instruction. A routine is followed by the
routines among its constants, and none is listed twice.
-/

namespace Reckoner

structure Listing where
  text : String := ""
  visited : List Identity := []
  started : Bool := false
  deriving Inhabited

namespace Listing

def missingRoutine : String := "nil function"

def missingCode : String := "nil chunk"

def append (l : Listing) (s : String) : Listing := { l with text := l.text ++ s }

def startSection (l : Listing) : Listing :=
  if l.started then l.append "\n" else { l with started := true }

def native (l : Listing) (name : String) (arity : Int) : Listing :=
  l.startSection.append
    ("== <native " ++ name ++ "> (arity=" ++ Text.integer arity ++ ") ==\n")

def lineColumn (r : Routine) (offset : Nat) : String :=
  if 0 < offset ∧ r.lineAt offset = r.lineAt (offset - 1 : Nat) then "|"
  else Text.integer (r.lineAt offset)

def instructionLine (r : Routine) (i : Instruction) : String :=
  Text.zeroPadded 4 i.offset ++ " " ++ Text.padLeft 4 (lineColumn r i.offset) ++ " " ++ i.text
    ++ "\n"

def code (l : Listing) (r : Routine) : Listing × Option DecodeFault :=
  let (found, fault) := r.instructions
  (l.append (found.foldl (fun s i => s ++ instructionLine r i) ""), fault)

mutual

def routine (l : Listing) (r : Routine) : Listing × Option DecodeFault :=
  if l.visited.contains r.identity then (l, none)
  else
    let l := { l with visited := r.identity :: l.visited }.startSection
    match (l.append ("== " ++ r.display ++ " ==\n")).code r with
    | (l, some fault) => (l, some fault)
    | (l, none) =>
      match r with
      | { constants := ⟨constants⟩, .. } => l.pool constants

def pool (l : Listing) : List Constant → Listing × Option DecodeFault
  | [] => (l, none)
  | c :: rest =>
    match l.constant c with
    | (l, some fault) => (l, some fault)
    | (l, none) => l.pool rest

def constant (l : Listing) (c : Constant) : Listing × Option DecodeFault :=
  match c with
  | .routine r => l.routine r
  | _ => (l, none)

end

end Listing

end Reckoner
