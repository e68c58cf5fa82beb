import Reckoner.Code.Listing
import Reckoner.Decimal.Arithmetic
import Reckoner.Machine.Value

/-!
Runtime faults: what went wrong, the instruction at fault and the chain of calls around it.
-/

namespace Reckoner

inductive HostError where
  | plain (message : String)
  | arithmetic (error : ArithmeticError)
  | argument (index : Int) (want got : String)
  deriving Repr, DecidableEq, Inhabited

def HostError.message : HostError → String
  | .plain message => message
  | .arithmetic e => e.message
  | .argument index want got =>
    if want.isEmpty then "argument error"
    else
      let start := "argument " ++ Text.integer index ++ ": want " ++ want
      if got.isEmpty then start else start ++ ", got " ++ got

inductive Cause where
  | undefinedVariable (name : String)
  | operandsNotNumbers
  | operandNotNumber
  | arithmetic (error : ArithmeticError)
  | arity (expected : Int) (got : Nat)
  | notCallable
  | callDepth
  | stackFull
  | stackEmpty
  | peekRange
  | unknownOperation (byte : UInt8)
  | alreadyRunning
  | host (error : HostError)
  deriving Repr, DecidableEq, Inhabited

def Cause.message : Cause → String
  | .undefinedVariable name => "Undefined variable '" ++ name ++ "'"
  | .operandsNotNumbers => "Operands must be numbers"
  | .operandNotNumber => "Operand must be a number"
  | .arithmetic e => e.message
  | .arity expected got =>
    "Expected " ++ Text.integer expected ++ " arguments but got " ++ Text.natural got
  | .notCallable => "Can only call functions"
  | .callDepth => "Stack overflow"
  | .stackFull => "Value stack overflow"
  | .stackEmpty => "Attempt to pop off of empty stack"
  | .peekRange => "Attempt to peek beyond end of stack"
  | .unknownOperation b => "Unknown opcode " ++ Text.natural b.toNat
  | .alreadyRunning => "VM is already running"
  | .host e => e.message

def Cause.isExternal : Cause → Bool
  | .arithmetic _ | .host _ => true
  | _ => false

structure FrameInfo where
  routine : String
  line : Int
  offset : Int
  deriving Repr, DecidableEq, Inhabited

def FrameInfo.blank : FrameInfo := { routine := "", line := 0, offset := 0 }

/-- A fault with the call it was raised in and the calls that led to it, innermost first. -/
structure Fault where
  cause : Cause
  frame : FrameInfo
  calls : List FrameInfo
  instruction : String
  deriving Repr, DecidableEq, Inhabited

namespace Fault

def message (f : Fault) : String := f.cause.message

def text (f : Fault) : String :=
  if f.frame.routine.isEmpty then f.message
  else "[line " ++ Text.integer f.frame.line ++ "] in " ++ f.frame.routine ++ ": " ++ f.message

def report (f : Fault) : String :=
  let start :=
    if f.frame.routine.isEmpty then ""
    else
      "[line " ++ Text.integer f.frame.line ++ "] Error in " ++ f.frame.routine ++ " at "
        ++ f.instruction ++ "\n"
  f.calls.foldl
    (fun s frame => s ++ "[line " ++ Text.integer frame.line ++ "] in " ++ frame.routine ++ "\n")
    (start ++ f.message ++ "\n")

end Fault

end Reckoner
