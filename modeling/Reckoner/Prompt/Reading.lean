import Reckoner.Compiler.Basic

/-!
How the prompt reads an input: the last token tells statements from expressions, and open braces
ask for more lines.
-/

namespace Reckoner.Prompt

def lastKind? (source : String) : Option Kind :=
  ((scan (bytesOf source)).dropLast.getLast?).map Token.kind

def isStatement (source : String) : Bool :=
  lastKind? source == some .semicolon || lastKind? source == some .rightBrace

def openBlocks (source : String) : Int :=
  (scan (bytesOf source)).foldl
    (fun depth t =>
      match t.kind with
      | .leftBrace => depth + 1
      | .rightBrace => depth - 1
      | _ => depth)
    0

/-- Compiles an input. One that does not end like a statement is tried as an expression first, and
if it is neither, the diagnostics are those of the expression. -/
def read (unit : Nat) (source : String) : Except (List Diagnostic) (Mode × Routine) :=
  if isStatement source then (compile unit source).map fun routine => (.script, routine)
  else
    match compileExpression unit source with
    | .ok routine => .ok (.expression, routine)
    | .error ds =>
      match compile unit source with
      | .ok routine => .ok (.script, routine)
      | .error _ => .error ds

end Reckoner.Prompt
