import Reckoner.Proofs.Compiler.Progress

/-!
The compiler with its guards. Each function stands beside the one it follows and gives nothing where
that one would read outside a table, look for a rule that is missing, or stop for want of fuel. The
guarded functions for declarations also note how many tokens were ahead at each declaration, and give
nothing for a declaration that passes no token.
-/

namespace Reckoner.Compiler

namespace Guarded

def patchJump (s : Compiler) (position : Nat) : Option Compiler :=
  if position + 1 < s.here then some (s.patchJump position) else none

def patchAll : List Nat → Compiler → Option Compiler
  | [], s => some s
  | position :: rest, s => do patchAll rest (← patchJump s position)

def markInitialized (s : Compiler) : Option Compiler :=
  if s.draft.depth ≠ 0 ∧ s.draft.locals = [] then none else some s.markInitialized

def endScope (s : Compiler) : Option Compiler :=
  if s.draft.depth = 0 then none else some s.endScope

def popLoop (s : Compiler) : Option Compiler :=
  match s.draft.loops with
  | [] => none
  | loop :: rest => patchAll loop.breaks { s with draft := { s.draft with loops := rest } }

def defineVariable (s : Compiler) (global : UInt8) : Option Compiler :=
  if 0 < s.draft.depth then markInitialized s else some (s.emitWith .defineGlobal global)

def closeRoutine (s : Compiler) : Option Compiler :=
  if s.enclosing = [] then none else some s.closeRoutine

def skipToStatement : (fuel : Nat) → Compiler → Option Compiler
  | 0, _ => none
  | fuel + 1, s =>
    if s.check .eof || s.previous.kind == .semicolon || beginsStatement s.current.kind then some s
    else skipToStatement fuel s.advance

def recover (s : Compiler) : Option Compiler :=
  if s.silent then skipToStatement (s.tokens.length + 1) { s with silent := false } else some s

mutual

def expression : (fuel : Nat) → Compiler → Option Compiler
  | 0, _ => none
  | fuel + 1, s => climb fuel Precedence.assignment s

def climb : (fuel : Nat) → (level : Precedence) → Compiler → Option Compiler
  | 0, _, _ => none
  | fuel + 1, level, s =>
    let s := s.advance
    if !beginsExpression s.previous.kind then some (s.fault .expectExpression)
    else do
      let assignable := level ≤ Precedence.assignment
      let s ← operators fuel level (← operand fuel assignable s)
      if assignable && isAssignment s.current.kind then some (s.advance.fault .invalidTarget)
      else some s

def operand : (fuel : Nat) → (assignable : Bool) → Compiler → Option Compiler
  | 0, _, _ => none
  | fuel + 1, assignable, s =>
    match s.previous.kind with
    | .number => some s.numberLiteral
    | .true => some (s.emitOp .true)
    | .false => some (s.emitOp .false)
    | .leftParen => do
      let s ← expression fuel s
      some (s.consume .rightParen .expectParenAfterExpression)
    | .minus => do
      let s ← climb fuel Precedence.unary s
      some (s.emitOp .negate)
    | .bang => do
      let s ← climb fuel Precedence.unary s
      some (s.emitOp .not)
    | .identifier => named fuel assignable s
    | _ => none

def named : (fuel : Nat) → (assignable : Bool) → Compiler → Option Compiler
  | 0, _, _ => none
  | fuel + 1, assignable, s =>
    let (s, v) := s.access
    if assignable && s.check .equal then do
      let s ← expression fuel s.advance
      some (s.emitWith v.store v.operand)
    else
      match (if assignable then compound? s.current.kind else none) with
      | some op => do
        let s ← expression fuel (s.advance.emitWith v.load v.operand)
        some ((s.emitOp op).emitWith v.store v.operand)
      | none => some (s.emitWith v.load v.operand)

def operators : (fuel : Nat) → (level : Precedence) → Compiler → Option Compiler
  | 0, _, _ => none
  | fuel + 1, level, s =>
    if level ≤ Precedence.ofKind s.current.kind then do
      operators fuel level (← operator fuel s.advance)
    else some s

def operator : (fuel : Nat) → Compiler → Option Compiler
  | 0, _ => none
  | fuel + 1, s =>
    match s.previous.kind with
    | .leftParen => do
      let (s, count) ← if s.check .rightParen then some (s, 0) else arguments fuel 0 s
      some ((s.consume .rightParen .expectParenAfterArguments).emitWith .call count.toUInt8)
    | .and => do
      let exit := s.here + 1
      let s ← climb fuel Precedence.and ((s.emitJump .jumpIfFalse).emitOp .pop)
      patchJump s exit
    | .or => do
      let next := s.here + 1
      let s := s.emitJump .jumpIfFalse
      let exit := s.here + 1
      let s ← patchJump (s.emitJump .jump) next
      let s ← climb fuel Precedence.or (s.emitOp .pop)
      patchJump s exit
    | kind => do
      if (binaryOps kind).isEmpty then none
      else do
        let s ← climb fuel (Precedence.ofRight kind) s
        some (s.emitOps (binaryOps kind))

def arguments : (fuel : Nat) → (count : Nat) → Compiler → Option (Compiler × Nat)
  | 0, _, _ => none
  | fuel + 1, count, s => do
    let s ← expression fuel s
    let s := if count = maxArguments then s.fault .tooManyArguments else s
    if s.check .comma then arguments fuel (count + 1) s.advance else some (s, count + 1)

end

def printStatement (fuel : Nat) (s : Compiler) : Option Compiler := do
  let s ← expression fuel s
  some ((s.consume .semicolon .expectSemicolonAfterPrint).emitOp .print)

def expressionStatement (fuel : Nat) (s : Compiler) : Option Compiler := do
  let s ← expression fuel s
  some ((s.consume .semicolon .expectSemicolonAfterExpression).emitOp .pop)

def varDeclaration (fuel : Nat) (s : Compiler) : Option Compiler := do
  let (s, global) := s.parseVariable .expectVariableName
  let s ← if s.check .equal then expression fuel s.advance else some (s.emitOp .false)
  defineVariable (s.consume .semicolon .expectSemicolonAfterVariable) global

def returnStatement (fuel : Nat) (s : Compiler) : Option Compiler := do
  let s := if s.enclosing.isEmpty then s.fault .returnOutsideFunction else s
  if s.check .semicolon then some s.advance.emitFalseReturn
  else
    let s ← expression fuel s
    some ((s.consume .semicolon .expectSemicolonAfterReturn).emitOp .return)

def addParameter (s : Compiler) : Option Compiler :=
  let routine := { s.draft.routine with arity := s.draft.routine.arity + 1 }
  let s := { s with draft := { s.draft with routine } }
  let s := if (maxArguments : Int) < routine.arity then s.faultAhead .tooManyParameters else s
  markInitialized (s.parseVariable .expectParameterName).1

def parameters : (fuel : Nat) → Compiler → Option Compiler
  | 0, _ => none
  | fuel + 1, s => do
    let s ← addParameter s
    if s.check .comma then parameters fuel s.advance else some s

def parameterList (fuel : Nat) (s : Compiler) : Option Compiler := do
  let s := s.consume .leftParen .expectParenAfterName
  let s ← if s.check .rightParen then some s else parameters fuel s
  some (s.consume .rightParen .expectParenAfterParameters)

def forInitializer (fuel : Nat) (s : Compiler) : Option Compiler :=
  if s.check .semicolon then some s.advance
  else if s.check .var then varDeclaration fuel s.advance
  else expressionStatement fuel s

def forCondition (fuel : Nat) (s : Compiler) : Option (Compiler × Option Nat) :=
  if s.check .semicolon then some (s.advance, none)
  else do
    let s ← expression fuel s
    let s := s.consume .semicolon .expectSemicolonAfterCondition
    some ((s.emitJump .jumpIfFalse).emitOp .pop, some (s.here + 1))

def forIncrement (fuel : Nat) (start : Nat) (s : Compiler) : Option (Compiler × Nat) :=
  if s.check .colon then some (s.advance, start)
  else do
    let skip := s.here + 1
    let s := s.emitJump .jump
    let increment := s.here
    let s ← expression fuel s
    let s := (s.emitOp .pop).consume .colon .expectColonAfterClauses
    let s ← patchJump (s.emitLoop start) skip
    some (s, increment)

mutual

def declaration : (fuel : Nat) → Compiler → Option (Compiler × List Nat)
  | 0, _ => none
  | fuel + 1, s => do
    let ahead := s.tokens.length
    let (s, calls) ←
      if s.check .fn then functionDeclaration fuel s.advance
      else if s.check .var then (varDeclaration fuel s.advance).map fun s => (s, [])
      else statement fuel s
    let s ← recover s
    if s.tokens.length < ahead then some (s, ahead :: calls) else none

def functionDeclaration : (fuel : Nat) → Compiler → Option (Compiler × List Nat)
  | 0, _ => none
  | fuel + 1, s => do
    let (s, global) := s.parseVariable .expectFunctionName
    let s ← markInitialized s
    let (s, calls) ← function fuel s.previous.lexeme s
    let s ← defineVariable s global
    some (s, calls)

def function : (fuel : Nat) → (name : String) → Compiler → Option (Compiler × List Nat)
  | 0, _, _ => none
  | fuel + 1, name, s => do
    let s ← parameterList fuel (s.openRoutine name).beginScope
    let (s, calls) ←
      if s.check .equal then do
        let s ← expression fuel s.advance
        some ((s.consume .semicolon .expectSemicolonAfterFunction).emitOp .return, [])
      else do
        let (s, calls) ← block fuel (s.consume .leftBrace .expectBraceBeforeBody)
        some (s.emitFalseReturn, calls)
    let s ← closeRoutine s
    some (s, calls)

def block : (fuel : Nat) → Compiler → Option (Compiler × List Nat)
  | 0, _ => none
  | fuel + 1, s =>
    if s.check .rightBrace || s.check .eof then
      some (s.consume .rightBrace .expectBraceAfterBlock, [])
    else do
      let (s, calls) ← declaration fuel s
      let (s, more) ← block fuel s
      some (s, calls ++ more)

def statement : (fuel : Nat) → Compiler → Option (Compiler × List Nat)
  | 0, _ => none
  | fuel + 1, s =>
    match s.current.kind with
    | .print => (printStatement fuel s.advance).map fun s => (s, [])
    | .if => ifStatement fuel s.advance
    | .while => whileStatement fuel s.advance
    | .for => forStatement fuel s.advance
    | .break => some (s.advance.breakStatement, [])
    | .continue => some (s.advance.continueStatement, [])
    | .return => (returnStatement fuel s.advance).map fun s => (s, [])
    | .leftBrace => do
      let (s, calls) ← block fuel s.advance.beginScope
      let s ← endScope s
      some (s, calls)
    | _ => (expressionStatement fuel s).map fun s => (s, [])

def ifStatement : (fuel : Nat) → Compiler → Option (Compiler × List Nat)
  | 0, _ => none
  | fuel + 1, s => do
    let s ← expression fuel s
    let s := s.consume .colon .expectColonAfterCondition
    let otherwise := s.here + 1
    let (s, calls) ← statement fuel ((s.emitJump .jumpIfFalse).emitOp .pop)
    let exit := s.here + 1
    let s ← patchJump (s.emitJump .jump) otherwise
    let s := s.emitOp .pop
    let (s, more) ←
      if s.check .else then statement fuel (s.advance.consume .colon .expectColonAfterElse)
      else some (s, [])
    let s ← patchJump s exit
    some (s, calls ++ more)

def whileStatement : (fuel : Nat) → Compiler → Option (Compiler × List Nat)
  | 0, _ => none
  | fuel + 1, s => do
    let start := s.here
    let s ← expression fuel s
    let s := s.consume .colon .expectColonAfterCondition
    let exit := s.here + 1
    let (s, calls) ← statement fuel (((s.emitJump .jumpIfFalse).emitOp .pop).pushLoop start)
    let s ← patchJump (s.emitLoop start) exit
    let s ← popLoop (s.emitOp .pop)
    some (s, calls)

def forStatement : (fuel : Nat) → Compiler → Option (Compiler × List Nat)
  | 0, _ => none
  | fuel + 1, s => do
    let s ← forInitializer fuel s.beginScope
    let start := s.here
    let (s, exit) ← forCondition fuel s
    let (s, start) ← forIncrement fuel start s
    let (s, calls) ← statement fuel (s.pushLoop start)
    let s := s.emitLoop start
    let s ←
      match exit with
      | some position => (patchJump s position).map fun s => s.emitOp .pop
      | none => some s
    let s ← endScope (← popLoop s)
    some (s, calls)

end

def declarations : (fuel : Nat) → Compiler → Option (Compiler × List Nat)
  | 0, _ => none
  | fuel + 1, s =>
    if s.check .eof then some (s.advance, [])
    else do
      let (s, calls) ← declaration fuel s
      let (s, more) ← declarations fuel s
      some (s, calls ++ more)

def script (unit : Nat) (tokens : List Token) : Option (Compiler × List Nat) := do
  let (s, calls) ← declarations (fuelFor tokens) (start unit tokens).advance
  some (s.emitFalseReturn, calls)

def singleExpression (unit : Nat) (tokens : List Token) : Option Compiler := do
  let s ← expression (fuelFor tokens) (start unit tokens).advance
  some ((s.consume .eof .expectEndOfExpression).emitOp .return)

end Guarded

/-- The diagnostics there are, and the one that can come before the next silence. -/
def credit (s : Compiler) : Nat := s.diagnostics.size + if s.silent then 0 else 1

structure Keeps (s t : Compiler) : Prop where
  closed : Closed s.stream → Closed t.stream
  tokens : t.tokens.length ≤ s.tokens.length
  here : s.here ≤ t.here
  locals : t.draft.locals = s.draft.locals
  depth : t.draft.depth = s.draft.depth
  loops : t.draft.loops = s.draft.loops
  enclosing : t.enclosing = s.enclosing
  credit : t.credit ≤ s.credit

namespace Keeps

variable {s t u : Compiler}

theorem refl (s : Compiler) : Keeps s s :=
  ⟨id, Nat.le_refl _, Nat.le_refl _, rfl, rfl, rfl, rfl, Nat.le_refl _⟩

theorem trans (first : Keeps s t) (second : Keeps t u) : Keeps s u where
  closed := second.closed ∘ first.closed
  tokens := Nat.le_trans second.tokens first.tokens
  here := Nat.le_trans first.here second.here
  locals := second.locals.trans first.locals
  depth := second.depth.trans first.depth
  loops := second.loops.trans first.loops
  enclosing := second.enclosing.trans first.enclosing
  credit := Nat.le_trans second.credit first.credit

theorem ofRoutine (s : Compiler) (routine : Routine)
    (grown : s.draft.routine.code.size ≤ routine.code.size) :
    Keeps s { s with draft := { s.draft with routine } } :=
  ⟨id, Nat.le_refl _, grown, rfl, rfl, rfl, rfl, Nat.le_refl _⟩

end Keeps

section

variable (s : Compiler)

theorem keeps_report (t : Token) (c : Complaint) : Keeps s (s.report t c) := by
  unfold report
  split
  · exact .refl s
  · rename_i audible
    refine ⟨id, Nat.le_refl _, Nat.le_refl _, rfl, rfl, rfl, rfl, ?_⟩
    simp [credit, audible]

theorem keeps_fault (c : Complaint) : Keeps s (s.fault c) := keeps_report s _ c

theorem keeps_faultAhead (c : Complaint) : Keeps s (s.faultAhead c) := keeps_report s _ c

theorem fetch_spec {ts : List Token} (closed : Closed ts) :
    Closed (fetch ts s).stream ∧ (fetch ts s).tokens.length < ts.length := by
  induction ts generalizing s with
  | nil => exact closed.elim
  | cons t rest ih =>
      rw [fetch]
      split
      · rename_i wrong
        have more : t.kind ≠ .eof := by rw [wrong]; decide
        obtain ⟨again, shorter⟩ := ih (s.report t .unexpectedCharacter) (closed.tail more)
        exact ⟨again, Nat.lt_succ_of_lt shorter⟩
      · exact ⟨closed, Nat.lt_succ_self _⟩

theorem keeps_fetch (ts : List Token) :
    (fetch ts s).draft = s.draft ∧ (fetch ts s).enclosing = s.enclosing ∧
      (fetch ts s).previous = s.previous ∧ (fetch ts s).tokens.length ≤ ts.length ∧
      (fetch ts s).credit ≤ s.credit := by
  induction ts generalizing s with
  | nil => exact ⟨rfl, rfl, rfl, Nat.le_refl _, Nat.le_refl _⟩
  | cons t rest ih =>
      rw [fetch]
      split
      · obtain ⟨draft, enclosing, previous, fewer, credit⟩ := ih (s.report t .unexpectedCharacter)
        have reported := keeps_report s t .unexpectedCharacter
        refine ⟨?_, ?_, ?_, Nat.le_succ_of_le fewer, Nat.le_trans credit reported.credit⟩
        · rw [draft, report]
          split <;> rfl
        · rw [enclosing, reported.enclosing]
        · rw [previous, report]
          split <;> rfl
      · exact ⟨rfl, rfl, rfl, Nat.le_succ _, Nat.le_refl _⟩

theorem advance_previous : s.advance.previous = s.current := (keeps_fetch _ s.tokens).2.2.1

theorem keeps_advance : Keeps s s.advance := by
  obtain ⟨draft, enclosing, -, fewer, credit⟩ :=
    keeps_fetch { s with previous := s.current } s.tokens
  have same : s.advance.draft = s.draft := draft
  refine ⟨?_, fewer, ?_, by rw [same], by rw [same], by rw [same], enclosing, credit⟩
  · intro closed
    by_cases ended : s.current.kind = .eof
    · have none : s.tokens = [] := closed.eq_nil ended
      rw [advance, none, fetch]
      rw [stream, none] at closed
      exact closed
    · exact (fetch_spec _ (closed.tail ended)).1
  · exact Nat.le_of_eq (by rw [here, here, same])

theorem keeps_consume (kind : Kind) (c : Complaint) : Keeps s (s.consume kind c) := by
  unfold consume
  split
  · exact keeps_advance s
  · exact keeps_faultAhead s c

theorem keeps_emit (b : UInt8) : Keeps s (s.emit b) := by
  refine .ofRoutine s _ ?_
  rw [Routine.write, Array.size_push]
  exact Nat.le_succ _

theorem keeps_emitOp (op : Operation) : Keeps s (s.emitOp op) := keeps_emit s _

theorem keeps_emitWith (op : Operation) (operand : UInt8) : Keeps s (s.emitWith op operand) :=
  (keeps_emitOp s op).trans (keeps_emit _ _)

theorem keeps_emitFalseReturn : Keeps s s.emitFalseReturn :=
  (keeps_emitOp s _).trans (keeps_emitOp _ _)

theorem keeps_emitJump (op : Operation) : Keeps s (s.emitJump op) :=
  ((keeps_emitOp s op).trans (keeps_emit _ _)).trans (keeps_emit _ _)

theorem keeps_constant (c : Constant) : Keeps s (s.constant c).1 := by
  have stored : Keeps s { s with draft := { s.draft with routine := (s.draft.routine.addConstant c).1 } } := by
    refine .ofRoutine s _ ?_
    rw [Routine.addConstant]
    split <;> exact Nat.le_refl _
  simp only [constant]
  split
  · exact stored.trans (keeps_fault _ _)
  · exact stored

theorem keeps_emitConstant (c : Constant) : Keeps s (s.emitConstant c) :=
  (keeps_constant s c).trans (keeps_emitWith _ _ _)

theorem keeps_patchJump (position : Nat) : Keeps s (s.patchJump position) := by
  simp only [patchJump]
  split
  · refine (keeps_fault s .jumpTooFar).trans (.ofRoutine _ _ ?_)
    simp
  · refine .ofRoutine _ _ ?_
    simp

theorem keeps_emitLoop (start : Nat) : Keeps s (s.emitLoop start) := by
  simp only [emitLoop]
  refine Keeps.trans ?_ ((keeps_emit _ _).trans (keeps_emit _ _))
  split
  · exact (keeps_emitOp s _).trans (keeps_fault _ _)
  · exact keeps_emitOp s _

theorem keeps_emitPops (n : Nat) : Keeps s (s.emitPops n) := by
  unfold emitPops
  split
  · exact .refl s
  · exact keeps_emitOp s _
  · exact keeps_emitWith s _ _

theorem keeps_emitOps (ops : List Operation) : Keeps s (s.emitOps ops) := by
  unfold emitOps
  induction ops generalizing s with
  | nil => exact .refl s
  | cons op rest ih => exact (keeps_emitOp s op).trans (ih _)

theorem keeps_numberLiteral : Keeps s s.numberLiteral := by
  unfold numberLiteral
  split
  · exact keeps_emitConstant s _
  · exact keeps_fault s _

theorem keeps_access : Keeps s s.access.1 := by
  unfold access
  split
  · dsimp only
    split
    · exact .refl s
    · exact keeps_fault s _
  · exact keeps_constant s _

end

theorem advance_shorter {s : Compiler} (closed : Closed s.stream) (more : s.current.kind ≠ .eof) :
    s.advance.tokens.length < s.tokens.length :=
  (fetch_spec _ (closed.tail more)).2

theorem Guarded.patchJump_eq {s : Compiler} {position : Nat} (inside : position + 1 < s.here) :
    Guarded.patchJump s position = some (s.patchJump position) := if_pos inside

/-- The guarded function gives what the function gives, which is a state after the given one. -/
def Yields (s : Compiler) (guarded : Option Compiler) (t : Compiler) : Prop :=
  guarded = some t ∧ Keeps s t

theorem beginsExpression_cases {kind : Kind} (starts : beginsExpression kind = true) :
    kind = .number ∨ kind = .true ∨ kind = .false ∨ kind = .leftParen ∨ kind = .minus ∨
      kind = .bang ∨ kind = .identifier := by
  cases kind <;> simp_all [beginsExpression]

theorem ofKind_cases {kind : Kind} (binds : 0 < Precedence.ofKind kind) :
    kind = .leftParen ∨ kind = .and ∨ kind = .or ∨
      kind ≠ .leftParen ∧ kind ≠ .and ∧ kind ≠ .or ∧ (binaryOps kind).isEmpty = false := by
  cases kind <;> simp_all [Precedence.ofKind, Precedence.none, binaryOps]

/-- With enough fuel for the tokens ahead, expressions are compiled without a missing rule or a place
outside the code. -/
structure ExpressionTotal (fuel : Nat) : Prop where
  expression : ∀ s, Closed s.stream → 16 * s.tokens.length + 2 ≤ fuel →
    Yields s (Guarded.expression fuel s) (expression fuel s) ∧
      (s.current.kind ≠ .eof → (expression fuel s).tokens.length < s.tokens.length)
  climb : ∀ level s, 0 < level → Closed s.stream → 16 * s.tokens.length + 1 ≤ fuel →
    Yields s (Guarded.climb fuel level s) (climb fuel level s) ∧
      (s.current.kind ≠ .eof → (climb fuel level s).tokens.length < s.tokens.length)
  operand : ∀ assignable s, beginsExpression s.previous.kind = true → Closed s.stream →
    16 * s.tokens.length + 3 ≤ fuel →
    Yields s (Guarded.operand fuel assignable s) (operand fuel assignable s)
  named : ∀ assignable s, Closed s.stream → 16 * s.tokens.length + 2 ≤ fuel →
    Yields s (Guarded.named fuel assignable s) (named fuel assignable s)
  operators : ∀ level s, 0 < level → Closed s.stream → 16 * s.tokens.length + 1 ≤ fuel →
    Yields s (Guarded.operators fuel level s) (operators fuel level s)
  operator : ∀ s, 0 < Precedence.ofKind s.previous.kind → Closed s.stream →
    16 * s.tokens.length + 4 ≤ fuel → Yields s (Guarded.operator fuel s) (operator fuel s)
  arguments : ∀ count s, Closed s.stream → 16 * s.tokens.length + 3 ≤ fuel →
    Guarded.arguments fuel count s = some (arguments fuel count s) ∧
      Keeps s (arguments fuel count s).1

namespace ExpressionTotal

variable {fuel : Nat} (ih : ExpressionTotal fuel) {s : Compiler} (closed : Closed s.stream)

include ih closed

theorem climb_succ {level : Precedence} (positive : 0 < level)
    (enough : 16 * s.tokens.length + 1 ≤ fuel + 1) :
    Yields s (Guarded.climb (fuel + 1) level s) (Compiler.climb (fuel + 1) level s) ∧
      (s.current.kind ≠ .eof → (Compiler.climb (fuel + 1) level s).tokens.length < s.tokens.length) := by
  have advanced := keeps_advance s
  rw [Guarded.climb, Compiler.climb]
  simp only []
  by_cases starts : beginsExpression s.advance.previous.kind = true
  · rw [starts]
    have more : s.current.kind ≠ .eof := by
      intro ended
      rw [advance_previous, ended] at starts
      exact absurd starts (by decide)
    have shorter := advance_shorter closed more
    obtain ⟨first, kept⟩ := ih.operand (decide (level ≤ Precedence.assignment)) _ starts
      (advanced.closed closed) (by omega)
    have fewer := kept.tokens
    obtain ⟨second, keptToo⟩ := ih.operators level _ positive
      ((advanced.trans kept).closed closed) (by omega)
    have rest := kept.trans keptToo
    rw [first]
    simp only [Bool.not_true, Bool.false_eq_true, if_false, Option.bind_eq_bind, Option.bind_some,
      second]
    split
    · have rest := rest.trans ((keeps_advance _).trans (keeps_fault _ .invalidTarget))
      exact ⟨⟨rfl, advanced.trans rest⟩, fun _ => Nat.lt_of_le_of_lt rest.tokens shorter⟩
    · exact ⟨⟨rfl, advanced.trans rest⟩, fun _ => Nat.lt_of_le_of_lt rest.tokens shorter⟩
  · rw [Bool.eq_false_iff.mpr starts]
    have last := advanced.trans (keeps_fault _ .expectExpression)
    refine ⟨⟨rfl, last⟩, ?_⟩
    intro more
    exact Nat.lt_of_le_of_lt (keeps_fault _ .expectExpression).tokens (advance_shorter closed more)

theorem operand_succ {assignable : Bool} (starts : beginsExpression s.previous.kind = true)
    (enough : 16 * s.tokens.length + 3 ≤ fuel + 1) :
    Yields s (Guarded.operand (fuel + 1) assignable s)
      (Compiler.operand (fuel + 1) assignable s) := by
  rw [Guarded.operand, Compiler.operand]
  rcases beginsExpression_cases starts with kind | kind | kind | kind | kind | kind | kind
  · rw [kind]
    exact ⟨rfl, keeps_numberLiteral s⟩
  · rw [kind]
    exact ⟨rfl, keeps_emitOp s _⟩
  · rw [kind]
    exact ⟨rfl, keeps_emitOp s _⟩
  · obtain ⟨⟨given, kept⟩, -⟩ := ih.expression s closed (by omega)
    rw [kind, given]
    exact ⟨rfl, kept.trans (keeps_consume _ _ _)⟩
  · obtain ⟨⟨given, kept⟩, -⟩ := ih.climb Precedence.unary s (by decide) closed (by omega)
    rw [kind, given]
    exact ⟨rfl, kept.trans (keeps_emitOp _ _)⟩
  · obtain ⟨⟨given, kept⟩, -⟩ := ih.climb Precedence.unary s (by decide) closed (by omega)
    rw [kind, given]
    exact ⟨rfl, kept.trans (keeps_emitOp _ _)⟩
  · rw [kind]
    exact ih.named assignable s closed (by omega)

theorem named_succ {assignable : Bool} (enough : 16 * s.tokens.length + 2 ≤ fuel + 1) :
    Yields s (Guarded.named (fuel + 1) assignable s) (Compiler.named (fuel + 1) assignable s) := by
  have found := keeps_access s
  have closed := found.closed closed
  have fewer := found.tokens
  rw [Guarded.named, Compiler.named]
  simp only []
  split
  · rename_i assigns
    have more : s.access.1.current.kind ≠ .eof := by
      intro ended
      rw [check, ended] at assigns
      exact absurd assigns (by simp)
    have shorter := advance_shorter closed more
    have advanced := keeps_advance s.access.1
    obtain ⟨⟨given, kept⟩, -⟩ := ih.expression _ (advanced.closed closed) (by omega)
    rw [given]
    exact ⟨rfl, ((found.trans advanced).trans kept).trans (keeps_emitWith _ _ _)⟩
  · cases compounds : (if assignable = true then compound? s.access.1.current.kind else none) with
    | some op =>
      have more : s.access.1.current.kind ≠ .eof := by
        intro ended
        rw [ended] at compounds
        split at compounds <;> cases compounds
      have shorter := advance_shorter closed more
      have advanced := (keeps_advance s.access.1).trans
        (keeps_emitWith _ s.access.2.load s.access.2.operand)
      have same : (s.access.1.advance.emitWith s.access.2.load s.access.2.operand).tokens =
        s.access.1.advance.tokens := rfl
      obtain ⟨⟨given, kept⟩, -⟩ := ih.expression _ (advanced.closed closed) (by rw [same]; omega)
      simp only [given, Option.bind_eq_bind, Option.bind_some]
      exact ⟨rfl, ((found.trans advanced).trans kept).trans
        ((keeps_emitOp _ _).trans (keeps_emitWith _ _ _))⟩
    | none => exact ⟨rfl, found.trans (keeps_emitWith _ _ _)⟩

theorem operators_succ {level : Precedence} (positive : 0 < level)
    (enough : 16 * s.tokens.length + 1 ≤ fuel + 1) :
    Yields s (Guarded.operators (fuel + 1) level s) (Compiler.operators (fuel + 1) level s) := by
  rw [Guarded.operators, Compiler.operators]
  split
  · rename_i binds
    have more : s.current.kind ≠ .eof := by
      intro ended
      rw [ended] at binds
      exact absurd positive (Nat.not_lt.mpr binds)
    have shorter := advance_shorter closed more
    have advanced := keeps_advance s
    obtain ⟨given, kept⟩ := ih.operator s.advance
      (by rw [advance_previous]; exact Nat.lt_of_lt_of_le positive binds)
      (advanced.closed closed) (by omega)
    have fewer := kept.tokens
    obtain ⟨others, keptToo⟩ := ih.operators level _ positive
      ((advanced.trans kept).closed closed) (by omega)
    rw [given]
    exact ⟨others, (advanced.trans kept).trans keptToo⟩
  · exact ⟨rfl, .refl s⟩

theorem operator_succ (binds : 0 < Precedence.ofKind s.previous.kind)
    (enough : 16 * s.tokens.length + 4 ≤ fuel + 1) :
    Yields s (Guarded.operator (fuel + 1) s) (Compiler.operator (fuel + 1) s) := by
  rw [Guarded.operator, Compiler.operator]
  rcases ofKind_cases binds with kind | kind | kind | ⟨notCall, notAnd, notOr, some⟩
  · rw [kind]
    by_cases ends : s.check .rightParen = true
    · simp only [if_pos ends, Option.bind_eq_bind, Option.bind_some]
      exact ⟨rfl, (keeps_consume _ _ _).trans (keeps_emitWith _ _ _)⟩
    · obtain ⟨given, kept⟩ := ih.arguments 0 s closed (by omega)
      simp only [if_neg ends, Option.bind_eq_bind, given, Option.bind_some]
      exact ⟨rfl, kept.trans ((keeps_consume _ _ _).trans (keeps_emitWith _ _ _))⟩
  · rw [kind]
    have jumped := (keeps_emitJump s .jumpIfFalse).trans (keeps_emitOp _ .pop)
    obtain ⟨⟨given, kept⟩, -⟩ := ih.climb Precedence.and _ (by decide) (jumped.closed closed)
      (by have := jumped.tokens; omega)
    have inside : s.here + 1 + 1 <
        (Compiler.climb fuel Precedence.and ((s.emitJump .jumpIfFalse).emitOp .pop)).here := by
      have here := ((keeps_emitOp _ .pop).trans kept).here
      rw [here_emitJump] at here
      omega
    simp only [Option.bind_eq_bind, given, Option.bind_some, Guarded.patchJump_eq inside]
    exact ⟨rfl, (jumped.trans kept).trans (keeps_patchJump _ _)⟩
  · rw [kind]
    have jumped := (keeps_emitJump s .jumpIfFalse).trans (keeps_emitJump _ .jump)
    have before : s.here + 1 + 1 < ((s.emitJump .jumpIfFalse).emitJump .jump).here := by
      rw [here_emitJump, here_emitJump]
      omega
    have patched := (jumped.trans (keeps_patchJump _ (s.here + 1))).trans (keeps_emitOp _ .pop)
    obtain ⟨⟨given, kept⟩, -⟩ := ih.climb Precedence.or _ (by decide) (patched.closed closed)
      (by have := patched.tokens; omega)
    have inside : (s.emitJump .jumpIfFalse).here + 1 + 1 < (Compiler.climb fuel Precedence.or
        ((((s.emitJump .jumpIfFalse).emitJump .jump).patchJump (s.here + 1)).emitOp .pop)).here := by
      have here := ((keeps_patchJump _ (s.here + 1)).trans ((keeps_emitOp _ .pop).trans kept)).here
      rw [here_emitJump] at here
      omega
    simp only [Option.bind_eq_bind, Guarded.patchJump_eq before, Option.bind_some, given,
      Guarded.patchJump_eq inside]
    exact ⟨rfl, (patched.trans kept).trans (keeps_patchJump _ _)⟩
  · have level : 0 < Precedence.ofRight s.previous.kind := by
      rw [Precedence.ofRight]
      split
      · decide
      · exact Nat.succ_pos _
    obtain ⟨⟨given, kept⟩, -⟩ := ih.climb _ s level closed (by omega)
    simp only [some, given, Option.bind_eq_bind, Option.bind_some, Bool.false_eq_true, if_false]
    exact ⟨rfl, kept.trans (keeps_emitOps _ _)⟩

theorem arguments_succ {count : Nat} (enough : 16 * s.tokens.length + 3 ≤ fuel + 1) :
    Guarded.arguments (fuel + 1) count s = some (Compiler.arguments (fuel + 1) count s) ∧
      Keeps s (Compiler.arguments (fuel + 1) count s).1 := by
  have counted : ∀ t : Compiler,
      Keeps t (if count = maxArguments then t.fault .tooManyArguments else t) := by
    intro t
    split
    · exact keeps_fault t _
    · exact .refl t
  obtain ⟨⟨given, kept⟩, -⟩ := ih.expression s closed (by omega)
  have kept := kept.trans (counted _)
  rw [Guarded.arguments, Compiler.arguments]
  simp only [Option.bind_eq_bind, given, Option.bind_some]
  generalize (if count = maxArguments then (Compiler.expression fuel s).fault .tooManyArguments
    else Compiler.expression fuel s) = t at kept ⊢
  have fewer := kept.tokens
  split
  · rename_i comma
    have more : t.current.kind ≠ .eof := by
      intro ended
      rw [check, ended] at comma
      exact absurd comma (by decide)
    have shorter := advance_shorter (kept.closed closed) more
    have advanced := kept.trans (keeps_advance t)
    obtain ⟨others, keptToo⟩ := ih.arguments (count + 1) t.advance (advanced.closed closed) (by omega)
    exact ⟨others, advanced.trans keptToo⟩
  · exact ⟨rfl, kept⟩

end ExpressionTotal

theorem expressionTotal (fuel : Nat) : ExpressionTotal fuel := by
  induction fuel with
  | zero => constructor <;> intros <;> exact absurd ‹_ ≤ 0› (by omega)
  | succ fuel ih =>
      exact {
        expression := fun s closed enough => by
          rw [Guarded.expression, Compiler.expression]
          exact ih.climb Precedence.assignment s (by decide) closed (by omega)
        climb := fun _ _ positive closed enough => ih.climb_succ closed positive enough
        operand := fun _ _ starts closed enough => ih.operand_succ closed starts enough
        named := fun _ _ closed enough => ih.named_succ closed enough
        operators := fun _ _ positive closed enough => ih.operators_succ closed positive enough
        operator := fun _ binds closed enough => ih.operator_succ closed binds enough
        arguments := fun _ _ closed enough => ih.arguments_succ closed enough }

end Reckoner.Compiler
