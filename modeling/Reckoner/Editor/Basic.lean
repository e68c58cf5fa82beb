import Reckoner.Compiler.Basic
import Reckoner.Editor.Assistance

/-!
The language server: it keeps open documents, marks the lines that do not compile, and assists at a
position.
-/

namespace Reckoner

namespace Editor

def serverName : String := "speedcalc-lsp"

def serverVersion : String := "0.1.0"

structure Mark where
  line : Nat
  stop : Nat
  message : String
  deriving Repr, DecidableEq, Inhabited

def severity : Nat := 1

def Mark.ofDiagnostic (lines : List String) (d : Diagnostic) : Mark :=
  let line := d.line - 1
  { line
    stop := (lines[line]?.map String.utf8ByteSize).getD 0
    message :=
      if d.place.text.isEmpty then d.complaint.message
      else d.place.text ++ ": " ++ d.complaint.message }

def marks (text : String) : List Mark :=
  match compile 0 text with
  | .ok _ => []
  | .error ds => ds.map (Mark.ofDiagnostic (Text.cut '\n' text))

def marksMethod : String := "textDocument/publishDiagnostics"

structure Notice where
  uri : String
  marks : List Mark
  deriving Repr, DecidableEq, Inhabited

inductive Change where
  | whole (text : String)
  | part
  deriving Repr, DecidableEq, Inhabited

end Editor

structure Editor where
  machine : Machine
  documents : List (String × String)

namespace Editor

def new (machine : Machine) : Editor := { machine, documents := [] }

def document? (e : Editor) (uri : String) : Option String := e.documents.lookup uri

def store (e : Editor) (uri text : String) : Editor × List Notice :=
  let others := e.documents.filter fun (other, _) => other != uri
  ({ e with documents := (uri, text) :: others }, [{ uri, marks := marks text }])

def change (e : Editor) (uri : String) (changes : List Change) : Editor × List Notice :=
  match changes.getLast? with
  | some (.whole text) => e.store uri text
  | _ => (e, [])

def close (e : Editor) (uri : String) : Editor × List Notice :=
  ({ e with documents := e.documents.filter fun (other, _) => other != uri },
    [{ uri, marks := [] }])

def complete? (e : Editor) (uri : String) (p : Position) : Option (List Item) :=
  (e.document? uri).map fun text =>
    completions (wordStart text p) e.machine.globalNames (declaredNames text)

def hover? (e : Editor) (uri : String) (p : Position) : Option String :=
  (e.document? uri).bind fun text =>
    if (wordAt text p).isEmpty then none else explanation? (wordAt text p) text

end Editor

end Reckoner
