import Reckoner.Files.Path

/-!
A tree of files. Places in it are lists of names from the root.
-/

namespace Reckoner

inductive Node where
  | directory
  | file (text : String)
  deriving Repr, DecidableEq, Inhabited

structure Files where
  entries : List (List String × Node)
  deriving Repr, DecidableEq, Inhabited

inductive FileError where
  | missing
  | notDirectory
  | directory
  deriving Repr, DecidableEq, Inhabited

def FileError.message : FileError → String
  | .missing => "no such file or directory"
  | .notDirectory => "not a directory"
  | .directory => "is a directory"

structure FileFault where
  activity : String
  path : String
  error : FileError
  deriving Repr, DecidableEq, Inhabited

def FileFault.message (f : FileFault) : String :=
  f.activity ++ " " ++ f.path ++ ": " ++ f.error.message

namespace Files

def empty : Files := { entries := [] }

def node? (files : Files) (place : List String) : Option Node :=
  if place.isEmpty then some .directory else files.entries.lookup place

def insert (files : Files) (place : List String) (node : Node) : Files :=
  match files.node? place with
  | some _ => files
  | none => { files with entries := (place, node) :: files.entries }

def add (files : Files) (place : List String) (node : Node) : Files :=
  let above := (List.range place.length).map fun n => place.take n
  (above.foldl (fun files p => files.insert p .directory) files).insert place node

/-- Walks from a place, whose last name stands in front. Every name but the last one has to be that
of a directory. -/
def walk (files : Files) : (place : List String) → List String → Except FileError (List String)
  | place, [] => .ok place.reverse
  | place, name :: rest =>
    match files.node? place.reverse with
    | none => .error .missing
    | some (.file _) => .error .notDirectory
    | some .directory =>
      if name.isEmpty || name == "." then walk files place rest
      else if name == ".." then walk files place.tail rest
      else
        match files.node? (name :: place).reverse with
        | none => .error .missing
        | some _ => walk files (name :: place) rest

def locate (files : Files) (directory path : String) : Except FileError (List String × Node) :=
  if path.isEmpty then .error .missing
  else do
    let start := if Path.isAbsolute path then [] else (Path.cleanNames directory).reverse
    let place ← files.walk start (Path.names path)
    match files.node? place with
    | some node => .ok (place, node)
    | none => .error .missing

def isThere (files : Files) (directory path : String) : Bool :=
  (files.locate directory path).toOption.isSome

def read (files : Files) (directory path : String) : Except FileFault String :=
  match files.locate directory path with
  | .ok (_, .file text) => .ok text
  | .ok (_, .directory) => .error { activity := "read", path, error := .directory }
  | .error error => .error { activity := "open", path, error }

def ancestry (path : String) : List String :=
  let names := Path.names path
  ((List.range names.length).map fun n => Path.ofNames (names.take (n + 1))).filter (!·.isEmpty)

def makeDirectory (directory path : String) (files : Files) : Except FileFault Files :=
  (ancestry path).foldlM (fun files path =>
    match files.locate directory path with
    | .ok (_, .directory) => .ok files
    | .ok (_, .file _) => .error { activity := "mkdir", path, error := .notDirectory }
    | .error _ => .ok (files.insert (Path.cleanNames (Path.absolute directory path)) .directory))
    files

end Files

end Reckoner
