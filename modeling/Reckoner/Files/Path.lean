import Reckoner.Text.Lines

/-!
Paths are names divided by slashes. A clean path is the shortest one that leads to the same place:
it has no empty names, no dots, and double dots only in front.
-/

namespace Reckoner.Path

def isAbsolute (path : String) : Bool := path.toList.head? == some '/'

def names (path : String) : List String := Text.cut '/' path

def ofNames (names : List String) : String := "/".intercalate names

/-- Follows names from those already kept, the last kept one in front. Above the root there is only
the root. -/
def follow (rooted : Bool) : (kept : List String) → List String → List String
  | kept, [] => kept.reverse
  | kept, name :: rest =>
    if name.isEmpty || name == "." then follow rooted kept rest
    else if name == ".." then
      match kept with
      | [] => follow rooted (if rooted then [] else [".."]) rest
      | last :: earlier =>
        if last == ".." then follow rooted (".." :: kept) rest else follow rooted earlier rest
    else follow rooted (name :: kept) rest

def cleanNames (path : String) : List String := follow (isAbsolute path) [] (names path)

def clean (path : String) : String :=
  let names := cleanNames path
  if isAbsolute path then "/" ++ ofNames names
  else if names.isEmpty then "."
  else ofNames names

def join (path below : String) : String :=
  if path.isEmpty then if below.isEmpty then "" else clean below
  else clean (path ++ "/" ++ below)

def parent (path : String) : String :=
  clean (String.join ((names path).dropLast.map fun name => name ++ "/"))

def absolute (directory path : String) : String :=
  if isAbsolute path then clean path else join directory path

def expand (home path : String) : String :=
  match names path with
  | "~" :: rest => join home (ofNames rest)
  | _ => path

end Reckoner.Path
