import Reckoner.Compiler.Scope
import Reckoner.Decimal.Literal

/-!
Expressions, compiled by climbing precedences. Each level of fuel pays for one step of the
recursion, and every step but the last few of a branch reads a token.
-/

namespace Reckoner.Compiler

abbrev Precedence := Nat

namespace Precedence

def none : Precedence := 0
def assignment : Precedence := 1
def or : Precedence := 2
def and : Precedence := 3
def equality : Precedence := 4
def comparison : Precedence := 5
def term : Precedence := 6
def factor : Precedence := 7
def exponent : Precedence := 8
def unary : Precedence := 9
def call : Precedence := 10

def ofKind : Kind → Precedence
  | .leftParen => call
  | .minus | .plus => term
  | .slash | .star | .mod => factor
  | .starStar => exponent
  | .bangEqual | .equalEqual => equality
  | .greater | .greaterEqual | .less | .lessEqual => comparison
  | .and => and
  | .or => or
  | _ => none

/-- The level of the right operand. Only powers group to the right. -/
def ofRight (kind : Kind) : Precedence :=
  if kind = .starStar then exponent else ofKind kind + 1

end Precedence

def beginsExpression : Kind → Bool
  | .leftParen | .minus | .bang | .identifier | .number | .true | .false => true
  | _ => false

def compound? : Kind → Option Operation
  | .plusEqual => some .add
  | .minusEqual => some .subtract
  | .starEqual => some .multiply
  | .slashEqual => some .divide
  | .starStarEqual => some .exponent
  | _ => none

def isAssignment (kind : Kind) : Bool := kind == .equal || (compound? kind).isSome

/-- The operations of a binary operator. Some comparisons are the negation of another. -/
def binaryOps : Kind → List Operation
  | .plus => [.add]
  | .minus => [.subtract]
  | .star => [.multiply]
  | .slash => [.divide]
  | .starStar => [.exponent]
  | .mod => [.modulo]
  | .equalEqual => [.equal]
  | .bangEqual => [.equal, .not]
  | .greater => [.greater]
  | .greaterEqual => [.less, .not]
  | .less => [.less]
  | .lessEqual => [.greater, .not]
  | _ => []

def emitOps (s : Compiler) (ops : List Operation) : Compiler := ops.foldl emitOp s

def numberLiteral (s : Compiler) : Compiler :=
  match Decimal.parse s.previous.lexeme with
  | .ok d => s.emitConstant (.number d)
  | .error _ => s.fault .invalidNumber

structure Access where
  load : Operation
  store : Operation
  operand : UInt8

def access (s : Compiler) : Compiler × Access :=
  match findSlot s.previous.lexeme s.draft.locals with
  | some (slot, readable) =>
    let s := if readable then s else s.fault .ownInitializer
    (s, { load := .loadLocal, store := .assignLocal, operand := slot.toUInt8 })
  | none =>
    let (s, operand) := s.constant (.text s.previous.lexeme)
    (s, { load := .loadGlobal, store := .assignGlobal, operand })

mutual

def expression : (fuel : Nat) → Compiler → Compiler
  | 0, s => s
  | fuel + 1, s => climb fuel Precedence.assignment s

/-- An expression whose operators bind at least as tightly as the level. -/
def climb : (fuel : Nat) → (level : Precedence) → Compiler → Compiler
  | 0, _, s => s
  | fuel + 1, level, s =>
    let s := s.advance
    if !beginsExpression s.previous.kind then s.fault .expectExpression
    else
      let assignable := level ≤ Precedence.assignment
      let s := operators fuel level (operand fuel assignable s)
      if assignable && isAssignment s.current.kind then s.advance.fault .invalidTarget else s

def operand : (fuel : Nat) → (assignable : Bool) → Compiler → Compiler
  | 0, _, s => s
  | fuel + 1, assignable, s =>
    match s.previous.kind with
    | .number => s.numberLiteral
    | .true => s.emitOp .true
    | .false => s.emitOp .false
    | .leftParen => (expression fuel s).consume .rightParen .expectParenAfterExpression
    | .minus => (climb fuel Precedence.unary s).emitOp .negate
    | .bang => (climb fuel Precedence.unary s).emitOp .not
    | .identifier => named fuel assignable s
    | _ => s

def named : (fuel : Nat) → (assignable : Bool) → Compiler → Compiler
  | 0, _, s => s
  | fuel + 1, assignable, s =>
    let (s, v) := s.access
    if assignable && s.check .equal then (expression fuel s.advance).emitWith v.store v.operand
    else
      match (if assignable then compound? s.current.kind else none) with
      | some op =>
        let s := s.advance.emitWith v.load v.operand
        ((expression fuel s).emitOp op).emitWith v.store v.operand
      | none => s.emitWith v.load v.operand

def operators : (fuel : Nat) → (level : Precedence) → Compiler → Compiler
  | 0, _, s => s
  | fuel + 1, level, s =>
    if level ≤ Precedence.ofKind s.current.kind then
      operators fuel level (operator fuel s.advance)
    else s

def operator : (fuel : Nat) → Compiler → Compiler
  | 0, s => s
  | fuel + 1, s =>
    match s.previous.kind with
    | .leftParen =>
      let (s, count) :=
        if s.check .rightParen then (s, 0) else arguments fuel 0 s
      (s.consume .rightParen .expectParenAfterArguments).emitWith .call count.toUInt8
    | .and =>
      let exit := s.here + 1
      let s := (s.emitJump .jumpIfFalse).emitOp .pop
      (climb fuel Precedence.and s).patchJump exit
    | .or =>
      let next := s.here + 1
      let s := s.emitJump .jumpIfFalse
      let exit := s.here + 1
      let s := ((s.emitJump .jump).patchJump next).emitOp .pop
      (climb fuel Precedence.or s).patchJump exit
    | kind => (climb fuel (Precedence.ofRight kind) s).emitOps (binaryOps kind)

def arguments : (fuel : Nat) → (count : Nat) → Compiler → Compiler × Nat
  | 0, count, s => (s, count)
  | fuel + 1, count, s =>
    let s := expression fuel s
    let s := if count = maxArguments then s.fault .tooManyArguments else s
    if s.check .comma then arguments fuel (count + 1) s.advance else (s, count + 1)

end

end Reckoner.Compiler
