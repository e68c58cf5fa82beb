import Reckoner.Command.Basic

/-!
The command line: flags of the program itself, then a command and its arguments.
-/

namespace Reckoner.Command

def summaries : List (String × String) :=
  [("run FILE", "interpret a script file"),
    ("repl", "start the interactive prompt"),
    ("eval EXPR", "evaluate an expression or statements"),
    ("disasm FILE", "print the bytecode of a script"),
    ("bench [-runs N] [-scale F] [-only NAME]", "run the benchmark suite"),
    ("history [-n N] [-session ID] [-clear]", "list or clear recorded calculations"),
    ("serve [-addr ADDR] [-lsp-addr ADDR]", "run the RPC server and optional TCP language server"),
    ("lsp", "run the language server over stdio"),
    ("remote [-addr URL] [-session ID] EXPR", "evaluate on a running server")]

def programFlags : List Flag :=
  [{ name := "v", value := .integer (-1), help := "Log verbosity (overrides the config file)" },
    { name := "config", value := .text ""
      help := "Directory to search for " ++ Settings.fileName },
    { name := "log", value := .text "", help := "Log file (default: stderr)" }]

def usageWidth : Nat := 42

def usageText : String :=
  "Usage: speedcalc [options] COMMAND [args]\n\nCommands:\n"
    ++ String.join (summaries.map fun (usage, summary) =>
      "  " ++ Text.padRight usageWidth usage ++ " " ++ summary ++ "\n")
    ++ "\nOptions:\n" ++ flagUsage programFlags

def usageAfter (complaint : Option String) : Outcome :=
  { code := Outcome.usage, out := ""
    err :=
      (match complaint with
        | some message => message ++ "\n"
        | none => "") ++ usageText }

def perform (fuel : Nat) (settings : Settings) (name : String) (args : List String)
    (input : String) (ws : Workspace) : Outcome × Workspace :=
  match name with
  | "run" => (runFile fuel settings args ws, ws)
  | "repl" => interact fuel settings input ws
  | "eval" => evaluate fuel settings args ws
  | "disasm" => (list args ws, ws)
  | "bench" => (bench fuel args ws, ws)
  | "history" => history settings args ws
  | "serve" => serve settings args ws
  | "lsp" => (.quiet, ws)
  | "remote" => remote fuel settings args ws
  | _ => (usageAfter (some ("unknown command " ++ Text.quote name)), ws)

def execute (fuel : Nat) (args : List String) (input : String) (ws : Workspace) :
    Outcome × Workspace :=
  match readFlags programFlags args with
  | .error e => (usageAfter e.message?, ws)
  | .ok (_, []) => (usageAfter none, ws)
  | .ok (flags, name :: rest) =>
    match Settings.find ws.files ws.home ws.current (textFlag flags "config") with
    | .error e => (.complain Outcome.failure e.message, ws)
    | .ok settings => perform fuel settings name rest input ws

end Reckoner.Command
