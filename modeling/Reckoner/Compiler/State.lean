import Reckoner.Code.Routine
import Reckoner.Compiler.Diagnostic

/-!
The compiler at work. It reads tokens from the left, writes code as it goes, and after an error
keeps silent until it has found the start of another statement.
-/

namespace Reckoner

/-- A named stack slot. The depth is missing until its initializer has been compiled. -/
structure Local where
  name : String
  depth : Option Nat
  deriving Repr, DecidableEq, Inhabited

structure Loop where
  start : Nat
  depth : Nat
  breaks : List Nat
  deriving Repr, DecidableEq, Inhabited

/-- A routine under construction. Locals and loops are listed from the innermost outwards. -/
structure Draft where
  routine : Routine
  locals : List Local
  depth : Nat
  loops : List Loop

def Draft.start (identity : Identity) (name : String) : Draft :=
  { routine := Routine.empty identity name, locals := [{ name := "", depth := some 0 }], depth := 0,
    loops := [] }

structure Compiler where
  unit : Nat
  created : Nat
  tokens : List Token
  previous : Token
  current : Token
  silent : Bool
  diagnostics : Array Diagnostic
  draft : Draft
  enclosing : List Draft

namespace Compiler

def maxConstants : Nat := 256

def maxLocals : Nat := 256

def maxArguments : Nat := 255

def maxJump : Nat := 0xffff

def start (unit : Nat) (tokens : List Token) : Compiler :=
  { unit, created := 1, tokens, previous := default, current := default, silent := false,
    diagnostics := #[], draft := Draft.start { unit, index := 0 } "", enclosing := [] }

/-- Records a diagnostic, unless an earlier one is still being recovered from. -/
def report (s : Compiler) (t : Token) (c : Complaint) : Compiler :=
  if s.silent then s
  else
    { s with
      silent := true
      diagnostics :=
        s.diagnostics.push { line := t.line, place := Place.ofToken t, complaint := c } }

def fault (s : Compiler) (c : Complaint) : Compiler := s.report s.previous c

def faultAhead (s : Compiler) (c : Complaint) : Compiler := s.report s.current c

/-- Makes the next proper token current and reports the bytes in front of it that are none. -/
def fetch : List Token → Compiler → Compiler
  | [], s => { s with tokens := [] }
  | t :: rest, s =>
    if t.kind = .error then fetch rest (s.report t .unexpectedCharacter)
    else { s with tokens := rest, current := t }

def advance (s : Compiler) : Compiler := fetch s.tokens { s with previous := s.current }

def check (s : Compiler) (kind : Kind) : Bool := s.current.kind == kind

def consume (s : Compiler) (kind : Kind) (c : Complaint) : Compiler :=
  if s.check kind then s.advance else s.faultAhead c

def beginsStatement : Kind → Bool
  | .fn | .var | .for | .if | .while | .print | .return => true
  | _ => false

def skipToStatement : (fuel : Nat) → Compiler → Compiler
  | 0, s => s
  | fuel + 1, s =>
    if s.check .eof || s.previous.kind == .semicolon || beginsStatement s.current.kind then s
    else skipToStatement fuel s.advance

def recover (s : Compiler) : Compiler :=
  if s.silent then skipToStatement (s.tokens.length + 1) { s with silent := false } else s

def emit (s : Compiler) (b : UInt8) : Compiler :=
  { s with draft := { s.draft with routine := s.draft.routine.write s.previous.line b } }

def emitOp (s : Compiler) (op : Operation) : Compiler := s.emit op.byte

def emitWith (s : Compiler) (op : Operation) (operand : UInt8) : Compiler :=
  (s.emitOp op).emit operand

def here (s : Compiler) : Nat := s.draft.routine.code.size

def emitFalseReturn (s : Compiler) : Compiler := (s.emitOp .false).emitOp .return

def constant (s : Compiler) (c : Constant) : Compiler × UInt8 :=
  let (routine, index) := s.draft.routine.addConstant c
  let s := { s with draft := { s.draft with routine } }
  if maxConstants ≤ index then (s.fault .tooManyConstants, 0) else (s, index.toUInt8)

def emitConstant (s : Compiler) (c : Constant) : Compiler :=
  let (s, index) := s.constant c
  s.emitWith .constant index

/-- Writes a jump whose distance is filled in later; the distance starts one byte after `here`. -/
def emitJump (s : Compiler) (op : Operation) : Compiler :=
  ((s.emitOp op).emit 0xff).emit 0xff

def patchJump (s : Compiler) (position : Nat) : Compiler :=
  let distance := s.here - position - 2
  let s := if maxJump < distance then s.fault .jumpTooFar else s
  let patch (code : Array UInt8) : Array UInt8 :=
    (code.setIfInBounds position (distance / 256).toUInt8).setIfInBounds (position + 1)
      distance.toUInt8
  { s with
    draft :=
      { s.draft with routine := { s.draft.routine with code := patch s.draft.routine.code } } }

def emitLoop (s : Compiler) (start : Nat) : Compiler :=
  let s := s.emitOp .loop
  let distance := s.here - start + 2
  let s := if maxJump < distance then s.fault .loopTooLarge else s
  (s.emit (distance / 256).toUInt8).emit distance.toUInt8

end Compiler

end Reckoner
