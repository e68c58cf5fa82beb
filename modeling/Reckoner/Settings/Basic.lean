import Reckoner.Files.Tree
import Reckoner.Text.Columns
import Reckoner.Toml.Reader
import Reckoner.Toml.Table

/-!
Settings. They are read from a file over the defaults; unknown keys are ignored, and a known key
has to have a value of its type.
-/

namespace Reckoner

structure Settings where
  maxFrames : Int
  trace : Bool
  historyEnabled : Bool
  historyPath : String
  address : String
  editorAddress : String
  verbosity : Int
  logFile : String
  directory : String
  deriving Repr, DecidableEq, Inhabited

inductive SettingsError where
  | unreadable (path : String) (fault : FileFault)
  | malformed (path : String)
  | framesNotPositive (path : String) (frames : Int)
  deriving Repr, DecidableEq, Inhabited

def SettingsError.message : SettingsError → String
  | .unreadable path fault => "cannot read " ++ path ++ ": " ++ fault.message
  | .malformed path => "parse error in " ++ path ++ ": toml: malformed document"
  | .framesNotPositive path frames =>
    path ++ ": vm.max-frames must be positive, got " ++ Text.integer frames

namespace Settings

def fileName : String := "speedcalc.toml"

def default : Settings :=
  { maxFrames := 64, trace := false
    historyEnabled := true, historyPath := "~/.speedcalc/history.db"
    address := "127.0.0.1:7777", editorAddress := ""
    verbosity := 0, logFile := "", directory := "" }

/-- Keys are equal when they differ in the case of letters only. The long s and the sign of the
kelvin are letters in this sense. -/
def foldKey (key : String) : String :=
  key.map fun c => if c == '\u017f' then 's' else if c == '\u212a' then 'k' else c.toLower

def set (sectionName key : String) (value : Toml.Item) (s : Settings) : Option Settings :=
  match sectionName, key, value with
  | "vm", "max-frames", .scalar (.integer n) => some { s with maxFrames := n }
  | "vm", "trace", .scalar (.boolean b) => some { s with trace := b }
  | "history", "enabled", .scalar (.boolean b) => some { s with historyEnabled := b }
  | "history", "path", .scalar (.text t) => some { s with historyPath := t }
  | "server", "addr", .scalar (.text t) => some { s with address := t }
  | "server", "lsp-addr", .scalar (.text t) => some { s with editorAddress := t }
  | "log", "verbosity", .scalar (.integer n) => some { s with verbosity := n }
  | "log", "file", .scalar (.text t) => some { s with logFile := t }
  | "vm", "max-frames", _ | "vm", "trace", _ | "history", "enabled", _ | "history", "path", _
  | "server", "addr", _ | "server", "lsp-addr", _ | "log", "verbosity", _ | "log", "file", _ => none
  | _, _, _ => some s

def sections : List String := ["vm", "history", "server", "log"]

def merge (document : Toml.Table) (s : Settings) : Option Settings :=
  document.foldlM (fun s (name, item) =>
    let sectionName := foldKey name
    if !sections.contains sectionName then some s
    else
      match item with
      | .table entries =>
        entries.foldlM (fun s (key, value) => s.set sectionName (foldKey key) value) s
      | _ => none) s

def normalize (home path : String) (s : Settings) : Except SettingsError Settings :=
  if s.maxFrames ≤ 0 then .error (.framesNotPositive path s.maxFrames)
  else
    .ok { s with historyPath := Path.expand home s.historyPath
                 logFile := Path.expand home s.logFile }

def read? (document : String) : Option Settings := do
  let table ← Toml.Table.ofStatements? (← Toml.read? document)
  default.merge table

def load (files : Files) (home current directory : String) : Except SettingsError Settings :=
  let path := Path.join directory fileName
  match files.read current path with
  | .error fault => .error (.unreadable path fault)
  | .ok document =>
    match read? document with
    | none => .error (.malformed path)
    | some s => { s with directory := Path.absolute current directory }.normalize home path

def findFrom (files : Files) (home : String) : (steps : Nat) → (directory : String) →
    Except SettingsError Settings
  | 0, _ => default.normalize home ""
  | steps + 1, directory =>
    if files.isThere "/" (Path.join directory fileName) then load files home "/" directory
    else findFrom files home steps (Path.parent directory)

/-- The settings that hold in a directory: its own, else those of the nearest one above it, else
the defaults. -/
def find (files : Files) (home current directory : String) : Except SettingsError Settings :=
  let start := Path.absolute current directory
  findFrom files home ((Path.cleanNames start).length + 1) start

end Settings

end Reckoner
