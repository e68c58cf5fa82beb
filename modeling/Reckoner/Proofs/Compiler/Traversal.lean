import Reckoner.Compiler.Statement

/-!
One walk through the compiler for all that holds from step to step. What its few ways of changing a
state keep is kept by every function, and so from the first token of a source to the last.
-/

namespace Reckoner.Compiler

def pooled (s : Compiler) (c : Constant) : Compiler :=
  { s with draft := { s.draft with routine := (s.draft.routine.addConstant c).1 } }

/-- A relation between an earlier and a later state that no way of changing a state breaks while a
silence lasts. The constants of a draft change only through its pool, and number tokens alone are read as
numbers. -/
structure Quiet (related : Compiler → Compiler → Prop) : Prop where
  refl : ∀ s, related s s
  trans : ∀ {s t u}, related s t → related t u → related s u
  advance : ∀ s, related s s.advance
  fault : ∀ s {c}, c ≠ .invalidNumber → related s (s.fault c)
  faultAhead : ∀ s {c}, c ≠ .invalidNumber → related s (s.faultAhead c)
  redraft : ∀ s {d : Draft}, d.routine.constants = s.draft.routine.constants →
    related s { s with draft := d }
  name : ∀ s name, related s (s.pooled (.text name))
  number : ∀ s {d}, s.previous.kind = .number → Decimal.parse s.previous.lexeme = .ok d →
    related s (s.pooled (.number d))
  unread : ∀ s {e}, s.previous.kind = .number → Decimal.parse s.previous.lexeme = .error e →
    related s (s.fault .invalidNumber)
  opened : ∀ s name, related s (s.openRoutine name)
  closed : ∀ s {outer rest}, s.enclosing = outer :: rest →
    related s ({ s with draft := outer, enclosing := rest }.pooled (.routine s.draft.routine))

/-- A relation that the end of a silence does not break either. -/
structure Stable (related : Compiler → Compiler → Prop) : Prop extends Quiet related where
  listen : ∀ s, related s { s with silent := false }

namespace Quiet

variable {related : Compiler → Compiler → Prop} (quiet : Quiet related)

include quiet

section Primitives

variable (s : Compiler)

theorem emit (b : UInt8) : related s (s.emit b) := quiet.redraft s rfl

theorem emitOp (op : Operation) : related s (s.emitOp op) := quiet.emit s _

theorem emitWith (op : Operation) (operand : UInt8) : related s (s.emitWith op operand) :=
  quiet.trans (quiet.emitOp s op) (quiet.emit _ operand)

theorem emitFalseReturn : related s s.emitFalseReturn :=
  quiet.trans (quiet.emitOp s _) (quiet.emitOp _ _)

theorem emitJump (op : Operation) : related s (s.emitJump op) :=
  quiet.trans (quiet.emitWith s op 0xff) (quiet.emit _ 0xff)

theorem emitOps (ops : List Operation) : related s (s.emitOps ops) := by
  unfold Compiler.emitOps
  induction ops generalizing s with
  | nil => exact quiet.refl s
  | cons op rest ih => exact quiet.trans (quiet.emitOp s op) (ih _)

theorem emitPops (n : Nat) : related s (s.emitPops n) := by
  unfold Compiler.emitPops
  split
  · exact quiet.refl s
  · exact quiet.emitOp s _
  · exact quiet.emitWith s _ _

theorem consume (kind : Kind) {c : Complaint} (proper : c ≠ .invalidNumber) :
    related s (s.consume kind c) := by
  rw [Compiler.consume]
  split
  · exact quiet.advance s
  · exact quiet.faultAhead s proper

theorem complain {p : Prop} [Decidable p] {c : Complaint} (proper : c ≠ .invalidNumber) :
    related s (if p then s.fault c else s) := by
  split
  · exact quiet.fault s proper
  · exact quiet.refl s

theorem skipToStatement (fuel : Nat) : related s (Compiler.skipToStatement fuel s) := by
  induction fuel generalizing s with
  | zero => exact quiet.refl s
  | succ fuel ih =>
      rw [Compiler.skipToStatement]
      split
      · exact quiet.refl s
      · exact quiet.trans (quiet.advance s) (ih _)

theorem constant {s t : Compiler} {c : Constant} (put : related s (t.pooled c)) :
    related s (t.constant c).1 := by
  simp only [Compiler.constant]
  split
  · exact quiet.trans put (quiet.fault _ (by decide))
  · exact put

theorem emitConstant {s t : Compiler} {c : Constant} (put : related s (t.pooled c)) :
    related s (t.emitConstant c) :=
  quiet.trans (quiet.constant put) (quiet.emitWith _ _ _)

theorem patchJump (position : Nat) : related s (s.patchJump position) := by
  simp only [Compiler.patchJump]
  refine quiet.trans (quiet.complain s (p := maxJump < s.here - position - 2)
    (show Complaint.jumpTooFar ≠ .invalidNumber by decide)) (quiet.redraft _ rfl)

theorem emitLoop (start : Nat) : related s (s.emitLoop start) := by
  simp only [Compiler.emitLoop]
  refine quiet.trans (quiet.emitOp s .loop) ?_
  refine quiet.trans (quiet.complain _ (p := maxJump < (s.emitOp .loop).here - start + 2)
    (show Complaint.loopTooLarge ≠ .invalidNumber by decide)) ?_
  exact quiet.trans (quiet.emit _ _) (quiet.emit _ _)

theorem beginScope : related s s.beginScope := quiet.redraft s rfl

theorem endScope : related s s.endScope := by
  rw [Compiler.endScope]
  refine quiet.trans ?_ (quiet.emitPops _ _)
  exact quiet.redraft s rfl

theorem addLocal (name : String) : related s (s.addLocal name) := by
  rw [Compiler.addLocal]
  split
  · exact quiet.fault s (by decide)
  · exact quiet.redraft s rfl

theorem declareVariable : related s s.declareVariable := by
  simp only [Compiler.declareVariable]
  split
  · exact quiet.refl s
  · exact quiet.trans (quiet.complain s (by decide)) (quiet.addLocal _ _)

theorem markInitialized : related s s.markInitialized := by
  rw [Compiler.markInitialized]
  split
  · exact quiet.refl s
  · split
    · exact quiet.refl s
    · exact quiet.redraft s rfl

theorem pushLoop (start : Nat) : related s (s.pushLoop start) := quiet.redraft s rfl

theorem popLoop : related s s.popLoop := by
  unfold Compiler.popLoop
  split
  · exact quiet.refl s
  · rename_i loop rest _
    refine quiet.trans (quiet.redraft s (d := { s.draft with loops := rest }) rfl) ?_
    generalize { s with draft := { s.draft with loops := rest } } = opened
    induction loop.breaks generalizing opened with
    | nil => exact quiet.refl _
    | cons position more ih => exact quiet.trans (quiet.patchJump _ position) (ih _)

theorem addBreak (position : Nat) : related s (s.addBreak position) := by
  rw [Compiler.addBreak]
  split
  · exact quiet.refl s
  · exact quiet.redraft s rfl

theorem parseVariable {c : Complaint} (proper : c ≠ .invalidNumber) :
    related s (s.parseVariable c).1 := by
  have declared := quiet.trans (quiet.consume s .identifier proper) (quiet.declareVariable _)
  simp only [Compiler.parseVariable]
  split
  · exact declared
  · exact quiet.trans declared (quiet.constant (quiet.name _ _))

theorem defineVariable (global : UInt8) : related s (s.defineVariable global) := by
  rw [Compiler.defineVariable]
  split
  · exact quiet.markInitialized s
  · exact quiet.emitWith s _ _

theorem numberLiteral (number : s.previous.kind = .number) : related s s.numberLiteral := by
  rw [Compiler.numberLiteral]
  split
  · rename_i d read
    exact quiet.emitConstant (quiet.number s number read)
  · rename_i e failed
    exact quiet.unread s number failed

theorem access : related s s.access.1 := by
  unfold Compiler.access
  split
  · split
    · exact quiet.refl s
    · exact quiet.fault s (by decide)
  · exact quiet.constant (quiet.name s _)

theorem closeRoutine : related s s.closeRoutine := by
  rw [Compiler.closeRoutine]
  split
  · exact quiet.refl s
  · rename_i outer rest enclosing
    exact quiet.emitConstant (quiet.closed s enclosing)

theorem addParameter : related s s.addParameter := by
  simp only [Compiler.addParameter]
  refine quiet.trans ?_ (quiet.markInitialized _)
  refine quiet.trans ?_ (quiet.parseVariable _ (by decide))
  have counted : related s { s with draft := { s.draft with
      routine := { s.draft.routine with arity := s.draft.routine.arity + 1 } } } := quiet.redraft s rfl
  split
  · exact quiet.trans counted (quiet.faultAhead _ (by decide))
  · exact counted

theorem parameters (fuel : Nat) : related s (Compiler.parameters fuel s) := by
  induction fuel generalizing s with
  | zero => exact quiet.refl s
  | succ fuel ih =>
      rw [Compiler.parameters]
      split
      · exact quiet.trans (quiet.trans (quiet.addParameter s) (quiet.advance _)) (ih _)
      · exact quiet.addParameter s

theorem parameterList (fuel : Nat) : related s (Compiler.parameterList fuel s) := by
  have opened := quiet.consume s .leftParen (c := .expectParenAfterName) (by decide)
  simp only [Compiler.parameterList]
  refine quiet.trans ?_ (quiet.consume _ _ (by decide))
  split
  · exact opened
  · exact quiet.trans opened (quiet.parameters _ _)

end Primitives

end Quiet

/-- The relation is kept by the functions that read expressions with the given fuel. -/
structure ExpressionKeeps (related : Compiler → Compiler → Prop) (fuel : Nat) : Prop where
  expression : ∀ s, related s (expression fuel s)
  climb : ∀ level s, related s (climb fuel level s)
  operand : ∀ assignable s, related s (operand fuel assignable s)
  named : ∀ assignable s, related s (named fuel assignable s)
  operators : ∀ level s, related s (operators fuel level s)
  operator : ∀ s, related s (operator fuel s)
  arguments : ∀ count s, related s (arguments fuel count s).1

namespace ExpressionKeeps

variable {related : Compiler → Compiler → Prop} (quiet : Quiet related) {fuel : Nat}
  (ih : ExpressionKeeps related fuel) (s : Compiler)

include quiet ih

theorem climb_succ (level : Precedence) : related s (Compiler.climb (fuel + 1) level s) := by
  rw [Compiler.climb]
  dsimp only
  have started := quiet.advance s
  split
  · exact quiet.trans started (quiet.fault _ (by decide))
  · have operands := quiet.trans (quiet.trans started
      (ih.operand (decide (level ≤ Precedence.assignment)) _)) (ih.operators level _)
    split
    · exact quiet.trans (quiet.trans operands (quiet.advance _)) (quiet.fault _ (by decide))
    · exact operands

theorem operand_succ (assignable : Bool) : related s (Compiler.operand (fuel + 1) assignable s) := by
  rw [Compiler.operand]
  split
  · rename_i number
    exact quiet.numberLiteral s number
  · exact quiet.emitOp s _
  · exact quiet.emitOp s _
  · exact quiet.trans (ih.expression s) (quiet.consume _ _ (by decide))
  · exact quiet.trans (ih.climb _ s) (quiet.emitOp _ _)
  · exact quiet.trans (ih.climb _ s) (quiet.emitOp _ _)
  · exact ih.named assignable s
  · exact quiet.refl s

theorem named_succ (assignable : Bool) : related s (Compiler.named (fuel + 1) assignable s) := by
  rw [Compiler.named]
  dsimp only
  have found := quiet.access s
  have advanced := quiet.trans found (quiet.advance _)
  split
  · exact quiet.trans (quiet.trans advanced (ih.expression _)) (quiet.emitWith _ _ _)
  · split
    · refine quiet.trans (quiet.trans ?_ (quiet.emitOp _ _)) (quiet.emitWith _ _ _)
      exact quiet.trans (quiet.trans advanced (quiet.emitWith _ _ _)) (ih.expression _)
    · exact quiet.trans found (quiet.emitWith _ _ _)

theorem operators_succ (level : Precedence) : related s (Compiler.operators (fuel + 1) level s) := by
  rw [Compiler.operators]
  split
  · exact quiet.trans (quiet.trans (quiet.advance s) (ih.operator _)) (ih.operators level _)
  · exact quiet.refl s

theorem operator_succ : related s (Compiler.operator (fuel + 1) s) := by
  rw [Compiler.operator]
  split
  · refine quiet.trans (quiet.trans ?_ (quiet.consume _ _ (by decide))) (quiet.emitWith _ _ _)
    cases s.check .rightParen with
    | true => exact quiet.refl s
    | false => exact ih.arguments 0 s
  · have opened := quiet.trans (quiet.emitJump s .jumpIfFalse) (quiet.emitOp _ .pop)
    exact quiet.trans (quiet.trans opened (ih.climb _ _)) (quiet.patchJump _ _)
  · have opened := quiet.trans (quiet.emitJump s .jumpIfFalse) (quiet.emitJump _ .jump)
    have patched := quiet.trans (quiet.trans opened (quiet.patchJump _ (s.here + 1)))
      (quiet.emitOp _ .pop)
    exact quiet.trans (quiet.trans patched (ih.climb _ _)) (quiet.patchJump _ _)
  · exact quiet.trans (ih.climb _ s) (quiet.emitOps _ _)

theorem arguments_succ (count : Nat) : related s (Compiler.arguments (fuel + 1) count s).1 := by
  have reached := quiet.trans (ih.expression s) (quiet.complain (Compiler.expression fuel s)
    (p := count = maxArguments) (show Complaint.tooManyArguments ≠ .invalidNumber by decide))
  rw [Compiler.arguments]
  generalize (if count = maxArguments then (Compiler.expression fuel s).fault .tooManyArguments
    else Compiler.expression fuel s) = t at reached ⊢
  split
  · exact quiet.trans (quiet.trans reached (quiet.advance _)) (ih.arguments _ _)
  · exact reached

end ExpressionKeeps

structure StatementKeeps (related : Compiler → Compiler → Prop) (fuel : Nat) : Prop where
  declaration : ∀ s, related s (declaration fuel s)
  functionDeclaration : ∀ s, related s (functionDeclaration fuel s)
  function : ∀ name s, related s (function fuel name s)
  block : ∀ s, related s (block fuel s)
  statement : ∀ s, related s (statement fuel s)
  ifStatement : ∀ s, related s (ifStatement fuel s)
  whileStatement : ∀ s, related s (whileStatement fuel s)
  forStatement : ∀ s, related s (forStatement fuel s)

namespace Quiet

variable {related : Compiler → Compiler → Prop} (quiet : Quiet related)

include quiet

theorem expressionKeeps (fuel : Nat) : ExpressionKeeps related fuel := by
  induction fuel with
  | zero => constructor <;> intros <;> exact quiet.refl _
  | succ fuel ih =>
      exact {
        expression := fun s => ih.climb _ s
        climb := fun level s => ih.climb_succ quiet s level
        operand := fun assignable s => ih.operand_succ quiet s assignable
        named := fun assignable s => ih.named_succ quiet s assignable
        operators := fun level s => ih.operators_succ quiet s level
        operator := ih.operator_succ quiet
        arguments := fun count s => ih.arguments_succ quiet s count }

section Clauses

variable (fuel : Nat) (s : Compiler)

theorem expression : related s (Compiler.expression fuel s) :=
  (quiet.expressionKeeps fuel).expression s

theorem expressionThen (kind : Kind) {c : Complaint} (proper : c ≠ .invalidNumber) :
    related s ((Compiler.expression fuel s).consume kind c) :=
  quiet.trans (quiet.expression fuel s) (quiet.consume _ kind proper)

theorem printStatement : related s (Compiler.printStatement fuel s) :=
  quiet.trans (quiet.expressionThen fuel s _ (by decide)) (quiet.emitOp _ _)

theorem expressionStatement : related s (Compiler.expressionStatement fuel s) :=
  quiet.trans (quiet.expressionThen fuel s _ (by decide)) (quiet.emitOp _ _)

theorem varDeclaration : related s (Compiler.varDeclaration fuel s) := by
  have declared := quiet.parseVariable s (c := .expectVariableName) (by decide)
  simp only [Compiler.varDeclaration]
  refine quiet.trans (quiet.trans ?_ (quiet.consume _ _ (by decide))) (quiet.defineVariable _ _)
  split
  · exact quiet.trans (quiet.trans declared (quiet.advance _)) (quiet.expression _ _)
  · exact quiet.trans declared (quiet.emitOp _ _)

theorem breakStatement : related s s.breakStatement := by
  rw [Compiler.breakStatement]
  split
  · exact quiet.trans (quiet.fault s (by decide)) (quiet.consume _ _ (by decide))
  · refine quiet.trans (quiet.trans ?_ (quiet.emitJump _ .jump)) (quiet.addBreak _ _)
    exact quiet.trans (quiet.consume s .semicolon (by decide)) (quiet.emitPops _ _)

theorem continueStatement : related s s.continueStatement := by
  rw [Compiler.continueStatement]
  split
  · exact quiet.trans (quiet.fault s (by decide)) (quiet.consume _ _ (by decide))
  · refine quiet.trans ?_ (quiet.emitLoop _ _)
    exact quiet.trans (quiet.consume s .semicolon (by decide)) (quiet.emitPops _ _)

theorem returnStatement : related s (Compiler.returnStatement fuel s) := by
  have allowed := quiet.complain s (p := s.enclosing.isEmpty = true)
    (show Complaint.returnOutsideFunction ≠ .invalidNumber by decide)
  rw [Compiler.returnStatement]
  generalize (if s.enclosing.isEmpty = true then s.fault .returnOutsideFunction else s) = t at allowed ⊢
  split
  · exact quiet.trans (quiet.trans allowed (quiet.advance _)) (quiet.emitFalseReturn _)
  · exact quiet.trans (quiet.trans allowed (quiet.expressionThen _ _ _ (by decide)))
      (quiet.emitOp _ _)

theorem forInitializer : related s (Compiler.forInitializer fuel s) := by
  rw [Compiler.forInitializer]
  split
  · exact quiet.advance s
  · split
    · exact quiet.trans (quiet.advance s) (quiet.varDeclaration _ _)
    · exact quiet.expressionStatement _ _

theorem forCondition : related s (Compiler.forCondition fuel s).1 := by
  unfold Compiler.forCondition
  split
  · exact quiet.advance s
  · have test := quiet.expressionThen fuel s .semicolon (c := .expectSemicolonAfterCondition)
      (by decide)
    exact quiet.trans (quiet.trans test (quiet.emitJump _ _)) (quiet.emitOp _ _)

theorem forIncrement (start : Nat) : related s (Compiler.forIncrement fuel start s).1 := by
  unfold Compiler.forIncrement
  split
  · exact quiet.advance s
  · have opened := quiet.trans (quiet.emitJump s .jump) (quiet.expression fuel _)
    have clause := quiet.trans (quiet.trans opened (quiet.emitOp _ .pop))
      (quiet.consume _ .colon (c := .expectColonAfterClauses) (by decide))
    exact quiet.trans (quiet.trans clause (quiet.emitLoop _ _)) (quiet.patchJump _ _)

end Clauses

end Quiet

theorem Stable.recover {related : Compiler → Compiler → Prop} (stable : Stable related) (s : Compiler) :
    related s s.recover := by
  rw [Compiler.recover]
  split
  · exact stable.trans (stable.listen s) (stable.skipToStatement _ _)
  · exact stable.refl s


namespace StatementKeeps

variable {related : Compiler → Compiler → Prop} (stable : Stable related) {fuel : Nat}
  (ih : StatementKeeps related fuel) (s : Compiler)

include stable ih

theorem declaration_succ : related s (Compiler.declaration (fuel + 1) s) := by
  rw [Compiler.declaration]
  refine stable.trans ?_ (stable.recover _)
  split
  · exact stable.trans (stable.advance s) (ih.functionDeclaration _)
  · split
    · exact stable.trans (stable.advance s) (stable.varDeclaration _ _)
    · exact ih.statement s

theorem functionDeclaration_succ : related s (Compiler.functionDeclaration (fuel + 1) s) := by
  rw [Compiler.functionDeclaration]
  have marked := stable.trans (stable.parseVariable s (c := .expectFunctionName) (by decide))
    (stable.markInitialized _)
  exact stable.trans (stable.trans marked (ih.function _ _)) (stable.defineVariable _ _)

theorem function_succ (name : String) : related s (Compiler.function (fuel + 1) name s) := by
  rw [Compiler.function]
  refine stable.trans ?_ (stable.closeRoutine _)
  have opened := stable.trans (stable.opened s name) (stable.beginScope _)
  have listed := stable.trans opened (stable.parameterList _ fuel)
  split
  · have body := stable.trans (stable.trans listed (stable.advance _))
      (stable.expressionThen fuel _ .semicolon (c := .expectSemicolonAfterFunction) (by decide))
    exact stable.trans body (stable.emitOp _ _)
  · have entered := stable.trans listed
      (stable.consume _ .leftBrace (c := .expectBraceBeforeBody) (by decide))
    exact stable.trans (stable.trans entered (ih.block _)) (stable.emitFalseReturn _)

theorem block_succ : related s (Compiler.block (fuel + 1) s) := by
  rw [Compiler.block]
  split
  · exact stable.consume s _ (by decide)
  · exact stable.trans (ih.declaration s) (ih.block _)

theorem statement_succ : related s (Compiler.statement (fuel + 1) s) := by
  have advanced := stable.advance s
  rw [Compiler.statement]
  split
  · exact stable.trans advanced (stable.printStatement _ _)
  · exact stable.trans advanced (ih.ifStatement _)
  · exact stable.trans advanced (ih.whileStatement _)
  · exact stable.trans advanced (ih.forStatement _)
  · exact stable.trans advanced (stable.breakStatement _)
  · exact stable.trans advanced (stable.continueStatement _)
  · exact stable.trans advanced (stable.returnStatement _ _)
  · have inner := stable.trans (stable.trans advanced (stable.beginScope _)) (ih.block _)
    exact stable.trans inner (stable.endScope _)
  · exact stable.expressionStatement _ _

theorem ifStatement_succ : related s (Compiler.ifStatement (fuel + 1) s) := by
  rw [Compiler.ifStatement]
  refine stable.trans ?_ (stable.patchJump _ _)
  have test := stable.expressionThen fuel s .colon (c := .expectColonAfterCondition) (by decide)
  generalize (Compiler.expression fuel s).consume .colon .expectColonAfterCondition = t at test ⊢
  have opened := stable.trans (stable.trans test (stable.emitJump _ .jumpIfFalse)) (stable.emitOp _ .pop)
  have consequent := stable.trans (stable.trans opened (ih.statement _)) (stable.emitJump _ .jump)
  have joined := stable.trans (stable.trans consequent (stable.patchJump _ (t.here + 1)))
    (stable.emitOp _ .pop)
  split
  · have marked := stable.trans (stable.trans joined (stable.advance _))
      (stable.consume _ .colon (c := .expectColonAfterElse) (by decide))
    exact stable.trans marked (ih.statement _)
  · exact joined

theorem whileStatement_succ : related s (Compiler.whileStatement (fuel + 1) s) := by
  rw [Compiler.whileStatement]
  refine stable.trans ?_ (stable.popLoop _)
  refine stable.trans (stable.trans ?_ (stable.patchJump _ _)) (stable.emitOp _ _)
  refine stable.trans ?_ (stable.emitLoop _ _)
  refine stable.trans ?_ (ih.statement _)
  have test := stable.expressionThen fuel s .colon (c := .expectColonAfterCondition) (by decide)
  exact stable.trans (stable.trans (stable.trans test (stable.emitJump _ .jumpIfFalse))
    (stable.emitOp _ .pop)) (stable.pushLoop _ _)

theorem forStatement_succ : related s (Compiler.forStatement (fuel + 1) s) := by
  rw [Compiler.forStatement]
  have first := stable.trans (stable.beginScope s) (stable.forInitializer fuel _)
  generalize Compiler.forInitializer fuel s.beginScope = t at first ⊢
  have second := stable.trans first (stable.forCondition fuel t)
  generalize Compiler.forCondition fuel t = tested at second ⊢
  obtain ⟨u, exit⟩ := tested
  dsimp only at second ⊢
  have third := stable.trans second (stable.forIncrement fuel u t.here)
  generalize Compiler.forIncrement fuel t.here u = stepped at third ⊢
  obtain ⟨v, start⟩ := stepped
  dsimp only at third ⊢
  have body := stable.trans (stable.trans (stable.trans third (stable.pushLoop v start))
    (ih.statement _)) (stable.emitLoop _ start)
  cases exit with
  | none => exact stable.trans (stable.trans body (stable.popLoop _)) (stable.endScope _)
  | some position =>
      have left := stable.trans (stable.trans body (stable.patchJump _ position)) (stable.emitOp _ .pop)
      exact stable.trans (stable.trans left (stable.popLoop _)) (stable.endScope _)

end StatementKeeps

namespace Stable

variable {related : Compiler → Compiler → Prop} (stable : Stable related)

include stable

theorem statementKeeps (fuel : Nat) : StatementKeeps related fuel := by
  induction fuel with
  | zero => constructor <;> intros <;> exact stable.refl _
  | succ fuel ih =>
      exact {
        declaration := ih.declaration_succ stable
        functionDeclaration := ih.functionDeclaration_succ stable
        function := fun name s => ih.function_succ stable s name
        block := ih.block_succ stable
        statement := ih.statement_succ stable
        ifStatement := ih.ifStatement_succ stable
        whileStatement := ih.whileStatement_succ stable
        forStatement := ih.forStatement_succ stable }

theorem declarations (fuel : Nat) (s : Compiler) : related s (Compiler.declarations fuel s) := by
  induction fuel generalizing s with
  | zero => exact stable.refl s
  | succ fuel ih =>
      rw [Compiler.declarations]
      split
      · exact stable.advance s
      · exact stable.trans ((stable.statementKeeps fuel).declaration s) (ih _)

theorem script (unit : Nat) (tokens : List Token) :
    related (start unit tokens)
      (Compiler.declarations (fuelFor tokens) (start unit tokens).advance).emitFalseReturn :=
  stable.trans (stable.trans (stable.advance _) (stable.declarations _ _)) (stable.emitFalseReturn _)

theorem singleExpression (unit : Nat) (tokens : List Token) :
    related (start unit tokens)
      (((Compiler.expression (fuelFor tokens) (start unit tokens).advance).consume .eof
        .expectEndOfExpression).emitOp .return) :=
  stable.trans (stable.trans (stable.advance _) (stable.expressionThen _ _ _ (by decide)))
    (stable.emitOp _ _)

end Stable

end Reckoner.Compiler
