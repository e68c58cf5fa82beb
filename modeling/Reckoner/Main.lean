import Reckoner.Command.Dispatch

/-!
The program. It gathers the files a command line can mention, runs the command, and prints what the
command wrote. Journals live as long as the process.
-/

namespace Reckoner.Command

def directoriesFrom : (steps : Nat) → (path : String) → List String
  | 0, _ => []
  | steps + 1, path => path :: directoriesFrom steps (Path.parent path)

def mentioned (current : String) (args : List String) : List String :=
  let paths := current :: args.map (Path.absolute current)
  let settings (path : String) : List String :=
    (directoriesFrom ((Path.cleanNames path).length + 1) path).map (Path.join · Settings.fileName)
  paths ++ paths.flatMap settings

def addFile (files : Files) (path : String) : IO Files := do
  try
    return files.add (Path.cleanNames path) (.file (← IO.FS.readFile path))
  catch _ => return files

partial def readAll (input : IO.FS.Stream) (text : String) : IO String := do
  let line ← input.getLine
  if line.isEmpty then return text
  readAll input (text ++ line)

def unlimited : Nat := 1000000000000000000

def runProgram (args : List String) : IO UInt32 := do
  let current := (← IO.currentDir).toString
  let start := Files.empty.add (Path.cleanNames current) .directory
  let files ← (mentioned current args).foldlM addFile start
  let input ← if args.contains "repl" then readAll (← IO.getStdin) "" else pure ""
  let ws : Workspace :=
    { home := (← IO.getEnv "HOME").getD "/", current, files, journals := [], ids := { issued := 0 }
      service := none
      world := { nanoseconds := ← IO.monoNanosNow, seed := ← IO.rand 0 1000000000000000000 } }
  let (outcome, _) := execute unlimited args input ws
  IO.print outcome.out
  IO.eprint outcome.err
  return outcome.code.toUInt32

end Reckoner.Command

def main (args : List String) : IO UInt32 := Reckoner.Command.runProgram args
