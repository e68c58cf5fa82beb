import Reckoner.Compiler.Expression

/-!
Declarations and statements.
-/

namespace Reckoner.Compiler

def printStatement (fuel : Nat) (s : Compiler) : Compiler :=
  ((expression fuel s).consume .semicolon .expectSemicolonAfterPrint).emitOp .print

def expressionStatement (fuel : Nat) (s : Compiler) : Compiler :=
  ((expression fuel s).consume .semicolon .expectSemicolonAfterExpression).emitOp .pop

def varDeclaration (fuel : Nat) (s : Compiler) : Compiler :=
  let (s, global) := s.parseVariable .expectVariableName
  let s := if s.check .equal then expression fuel s.advance else s.emitOp .false
  (s.consume .semicolon .expectSemicolonAfterVariable).defineVariable global

def breakStatement (s : Compiler) : Compiler :=
  match s.draft.loops with
  | [] => (s.fault .breakOutsideLoop).consume .semicolon .expectSemicolonAfterBreak
  | loop :: _ =>
    let s := (s.consume .semicolon .expectSemicolonAfterBreak).discardLoopLocals loop
    (s.emitJump .jump).addBreak (s.here + 1)

def continueStatement (s : Compiler) : Compiler :=
  match s.draft.loops with
  | [] => (s.fault .continueOutsideLoop).consume .semicolon .expectSemicolonAfterContinue
  | loop :: _ =>
    let s := (s.consume .semicolon .expectSemicolonAfterContinue).discardLoopLocals loop
    s.emitLoop loop.start

def returnStatement (fuel : Nat) (s : Compiler) : Compiler :=
  let s := if s.enclosing.isEmpty then s.fault .returnOutsideFunction else s
  if s.check .semicolon then s.advance.emitFalseReturn
  else ((expression fuel s).consume .semicolon .expectSemicolonAfterReturn).emitOp .return

def openRoutine (s : Compiler) (name : String) : Compiler :=
  { s with
    created := s.created + 1
    draft := Draft.start { unit := s.unit, index := s.created } name
    enclosing := s.draft :: s.enclosing }

def closeRoutine (s : Compiler) : Compiler :=
  match s.enclosing with
  | [] => s
  | outer :: rest =>
    let routine := s.draft.routine
    { s with draft := outer, enclosing := rest }.emitConstant (.routine routine)

def addParameter (s : Compiler) : Compiler :=
  let routine := { s.draft.routine with arity := s.draft.routine.arity + 1 }
  let s := { s with draft := { s.draft with routine } }
  let s := if (maxArguments : Int) < routine.arity then s.faultAhead .tooManyParameters else s
  (s.parseVariable .expectParameterName).1.markInitialized

def parameters : (fuel : Nat) → Compiler → Compiler
  | 0, s => s
  | fuel + 1, s =>
    let s := s.addParameter
    if s.check .comma then parameters fuel s.advance else s

def parameterList (fuel : Nat) (s : Compiler) : Compiler :=
  let s := s.consume .leftParen .expectParenAfterName
  let s := if s.check .rightParen then s else parameters fuel s
  s.consume .rightParen .expectParenAfterParameters

def forInitializer (fuel : Nat) (s : Compiler) : Compiler :=
  if s.check .semicolon then s.advance
  else if s.check .var then varDeclaration fuel s.advance
  else expressionStatement fuel s

def forCondition (fuel : Nat) (s : Compiler) : Compiler × Option Nat :=
  if s.check .semicolon then (s.advance, none)
  else
    let s := (expression fuel s).consume .semicolon .expectSemicolonAfterCondition
    ((s.emitJump .jumpIfFalse).emitOp .pop, some (s.here + 1))

/-- The last clause of a `for` loop, and where the end of the body leads. The clause is written in
front of the body, which jumps back to it. -/
def forIncrement (fuel : Nat) (start : Nat) (s : Compiler) : Compiler × Nat :=
  if s.check .colon then (s.advance, start)
  else
    let skip := s.here + 1
    let s := s.emitJump .jump
    let increment := s.here
    let s := ((expression fuel s).emitOp .pop).consume .colon .expectColonAfterClauses
    ((s.emitLoop start).patchJump skip, increment)

mutual

def declaration : (fuel : Nat) → Compiler → Compiler
  | 0, s => s
  | fuel + 1, s =>
    let s :=
      if s.check .fn then functionDeclaration fuel s.advance
      else if s.check .var then varDeclaration fuel s.advance
      else statement fuel s
    s.recover

/-- A function can refer to itself, so its name is initialized before its body is compiled. -/
def functionDeclaration : (fuel : Nat) → Compiler → Compiler
  | 0, s => s
  | fuel + 1, s =>
    let (s, global) := s.parseVariable .expectFunctionName
    let s := s.markInitialized
    (function fuel s.previous.lexeme s).defineVariable global

def function : (fuel : Nat) → (name : String) → Compiler → Compiler
  | 0, _, s => s
  | fuel + 1, name, s =>
    let s := parameterList fuel (s.openRoutine name).beginScope
    let s :=
      if s.check .equal then
        let s := (expression fuel s.advance).consume .semicolon .expectSemicolonAfterFunction
        s.emitOp .return
      else
        (block fuel (s.consume .leftBrace .expectBraceBeforeBody)).emitFalseReturn
    s.closeRoutine

def block : (fuel : Nat) → Compiler → Compiler
  | 0, s => s
  | fuel + 1, s =>
    if s.check .rightBrace || s.check .eof then s.consume .rightBrace .expectBraceAfterBlock
    else block fuel (declaration fuel s)

def statement : (fuel : Nat) → Compiler → Compiler
  | 0, s => s
  | fuel + 1, s =>
    match s.current.kind with
    | .print => printStatement fuel s.advance
    | .if => ifStatement fuel s.advance
    | .while => whileStatement fuel s.advance
    | .for => forStatement fuel s.advance
    | .break => s.advance.breakStatement
    | .continue => s.advance.continueStatement
    | .return => returnStatement fuel s.advance
    | .leftBrace => (block fuel s.advance.beginScope).endScope
    | _ => expressionStatement fuel s

def ifStatement : (fuel : Nat) → Compiler → Compiler
  | 0, s => s
  | fuel + 1, s =>
    let s := (expression fuel s).consume .colon .expectColonAfterCondition
    let otherwise := s.here + 1
    let s := statement fuel ((s.emitJump .jumpIfFalse).emitOp .pop)
    let exit := s.here + 1
    let s := ((s.emitJump .jump).patchJump otherwise).emitOp .pop
    let s :=
      if s.check .else then
        statement fuel (s.advance.consume .colon .expectColonAfterElse)
      else s
    s.patchJump exit

def whileStatement : (fuel : Nat) → Compiler → Compiler
  | 0, s => s
  | fuel + 1, s =>
    let start := s.here
    let s := (expression fuel s).consume .colon .expectColonAfterCondition
    let exit := s.here + 1
    let s := ((s.emitJump .jumpIfFalse).emitOp .pop).pushLoop start
    let s := (statement fuel s).emitLoop start
    ((s.patchJump exit).emitOp .pop).popLoop

def forStatement : (fuel : Nat) → Compiler → Compiler
  | 0, s => s
  | fuel + 1, s =>
    let s := forInitializer fuel s.beginScope
    let start := s.here
    let (s, exit) := forCondition fuel s
    let (s, start) := forIncrement fuel start s
    let s := (statement fuel (s.pushLoop start)).emitLoop start
    let s :=
      match exit with
      | some position => (s.patchJump position).emitOp .pop
      | none => s
    s.popLoop.endScope

end

def declarations : (fuel : Nat) → Compiler → Compiler
  | 0, s => s
  | fuel + 1, s => if s.check .eof then s.advance else declarations fuel (declaration fuel s)

/-- Steps enough for any source with the given tokens. -/
def fuelFor (tokens : List Token) : Nat := 16 * tokens.length + 64

def finish (s : Compiler) : Except (List Diagnostic) Routine :=
  if s.diagnostics.isEmpty then .ok s.draft.routine else .error s.diagnostics.toList

def script (unit : Nat) (tokens : List Token) : Except (List Diagnostic) Routine :=
  (declarations (fuelFor tokens) (start unit tokens).advance).emitFalseReturn.finish

def singleExpression (unit : Nat) (tokens : List Token) : Except (List Diagnostic) Routine :=
  let s := expression (fuelFor tokens) (start unit tokens).advance
  ((s.consume .eof .expectEndOfExpression).emitOp .return).finish

end Reckoner.Compiler
