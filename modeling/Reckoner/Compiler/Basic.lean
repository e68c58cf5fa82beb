import Reckoner.Compiler.Statement
import Reckoner.Token.Scan

/-!
From source to routine. The unit number marks the identities of the routines of one compilation.
-/

namespace Reckoner

def compileBytes (unit : Nat) (source : List UInt8) : Except (List Diagnostic) Routine :=
  Compiler.script unit (scan source)

def compileExpressionBytes (unit : Nat) (source : List UInt8) :
    Except (List Diagnostic) Routine :=
  Compiler.singleExpression unit (scan source)

def compile (unit : Nat) (source : String) : Except (List Diagnostic) Routine :=
  compileBytes unit (bytesOf source)

def compileExpression (unit : Nat) (source : String) : Except (List Diagnostic) Routine :=
  compileExpressionBytes unit (bytesOf source)

inductive Mode where
  | expression
  | script
  deriving Repr, DecidableEq, Inhabited

/-- Compiles an expression or, if the source is none, a script. Only the diagnostics of the script
are given. -/
def readEither (unit : Nat) (source : String) : Except (List Diagnostic) (Mode × Routine) :=
  match compileExpression unit source with
  | .ok routine => .ok (.expression, routine)
  | .error _ => (compile unit source).map fun routine => (.script, routine)

def compileEither (unit : Nat) (source : String) : Except (List Diagnostic) Routine :=
  (readEither unit source).map Prod.snd

end Reckoner
