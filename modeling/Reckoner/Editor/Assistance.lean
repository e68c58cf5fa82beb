import Reckoner.Editor.Words
import Reckoner.Machine.State

/-!
What the editor offers: completions of the word being typed and an explanation of the word at a
position.
-/

namespace Reckoner.Editor

def keywordNotes : List (String × String) :=
  [("and", "`a and b` evaluates b only when a is truthy."),
    ("break", "`break;` leaves the innermost loop."),
    ("continue", "`continue;` skips to the next iteration of the innermost loop."),
    ("else", "`if cond: stmt else: stmt`"),
    ("false", "The boolean false. Uninitialized variables hold false."),
    ("fn", "`fn name(params) = expr;` or `fn name(params) \x7b ... \x7d` declares a function."),
    ("for", "`for init; cond; step: stmt` loops while cond is truthy."),
    ("if", "`if cond: stmt` runs stmt when cond is truthy."),
    ("mod", "`a mod b` is the remainder of a divided by b."),
    ("or", "`a or b` evaluates b only when a is falsey."),
    ("print", "`print expr;` writes the value of expr on its own line."),
    ("return", "`return expr;` leaves the current function with a value."),
    ("true", "The boolean true."),
    ("var", "`var name = expr;` declares a variable; without an initializer it holds false."),
    ("while", "`while cond: stmt` loops while cond is truthy.")]

def nativeNotes : List (String × String) :=
  [("clock", "clock() returns the wall-clock time in seconds since the Unix epoch."),
    ("random", "random() returns a uniformly distributed number in [0, 1).")]

inductive ItemKind where
  | keyword
  | function
  | name
  deriving Repr, DecidableEq, Inhabited

def ItemKind.code : ItemKind → Nat
  | .keyword => 14
  | .function => 3
  | .name => 6

structure Item where
  label : String
  kind : ItemKind
  detail : String
  deriving Repr, DecidableEq, Inhabited

def argumentCount (n : Native) : String := Text.integer n.arity ++ " args"

def candidates (globals declared : List String) : List Item :=
  keywordNotes.map (fun (word, _) => { label := word, kind := .keyword, detail := "keyword" })
    ++ Machine.standardNatives.map (fun n =>
      { label := n.name, kind := .function, detail := "native (" ++ argumentCount n ++ ")" })
    ++ globals.map (fun name => { label := name, kind := .name, detail := "global" })
    ++ declared.map (fun name => { label := name, kind := .name, detail := "declared" })

def completions (start : List UInt8) (globals declared : List String) : List Item :=
  let matching := (candidates globals declared).filter fun i => start.isPrefixOf (bytesOf i.label)
  (matching.foldl
    (fun (found : List Item) i =>
      if found.any fun other => other.label == i.label then found else i :: found)
    []).reverse

def explanation? (word : List UInt8) (text : String) : Option String :=
  match keywordNotes.find? fun (name, _) => bytesOf name == word with
  | some (name, note) => some ("**" ++ name ++ "** (keyword)\n\n" ++ note)
  | none =>
    match Machine.standardNatives.find? fun n => bytesOf n.name == word with
    | some n =>
      some ("**" ++ n.name ++ "** (native, " ++ argumentCount n ++ ")\n\n"
        ++ (nativeNotes.lookup n.name).getD "")
    | none => (signature? word text).map fun s => "```\n" ++ s ++ "\n```"

end Reckoner.Editor
