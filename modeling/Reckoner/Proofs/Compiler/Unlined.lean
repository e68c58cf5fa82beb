import Reckoner.Compiler.Basic
import Reckoner.Proofs.Token.Spacing

/-!
Forgetting lines. All states of the compiler can be stripped of the places of their tokens and of the
lines in their diagnostics and tables, and what the compiler does to a stripped state is what it does to
the state itself, stripped afterwards.
-/

namespace Reckoner

def Token.unlined (t : Token) : Token := { t with line := 0, start := 0, stop := 0 }

def Diagnostic.unlined (d : Diagnostic) : Diagnostic := { d with line := 0 }

mutual

def Constant.unlined : Constant → Constant
  | .number d => .number d
  | .text s => .text s
  | .bool b => .bool b
  | .routine r => .routine r.unlined
  | .foreign => .foreign
termination_by structural c => c

/-- A routine whose table says zero for every line, and so do the tables of the routines in it. -/
def Routine.unlined : Routine → Routine
  | ⟨identity, name, arity, code, lines, constants⟩ =>
    ⟨identity, name, arity, code, .replicate lines.size 0, unlinedPool constants⟩
termination_by structural r => r

def unlinedPool : Array Constant → Array Constant
  | ⟨constants⟩ => ⟨unlinedAll constants⟩
termination_by structural pool => pool

def unlinedAll : List Constant → List Constant
  | [] => []
  | c :: rest => c.unlined :: unlinedAll rest
termination_by structural constants => constants

end

theorem unlinedAll_eq (constants : List Constant) :
    unlinedAll constants = constants.map Constant.unlined := by
  induction constants with
  | nil => rfl
  | cons c rest ih => rw [unlinedAll, ih, List.map_cons]

theorem unlinedPool_eq (pool : Array Constant) : unlinedPool pool = pool.map Constant.unlined := by
  cases pool
  rw [unlinedPool, unlinedAll_eq, List.map_toArray]

@[simp] theorem Constant.same_unlined (a b : Constant) : a.unlined.same b.unlined = a.same b := by
  cases a <;> cases b <;> try rfl
  rename_i a b
  cases a
  cases b
  rfl

namespace Routine

theorem unlined_eq (r : Routine) : r.unlined =
    { r with
      lines := .replicate r.lines.size 0
      constants := r.constants.map Constant.unlined } := by
  cases r
  rw [unlined, unlinedPool_eq]

@[simp] theorem unlined_identity (r : Routine) : r.unlined.identity = r.identity := by
  rw [unlined_eq]

@[simp] theorem unlined_name (r : Routine) : r.unlined.name = r.name := by rw [unlined_eq]

@[simp] theorem unlined_arity (r : Routine) : r.unlined.arity = r.arity := by rw [unlined_eq]

@[simp] theorem unlined_code (r : Routine) : r.unlined.code = r.code := by rw [unlined_eq]

@[simp] theorem unlined_constants (r : Routine) :
    r.unlined.constants = r.constants.map Constant.unlined := by
  rw [unlined_eq]

theorem unlined_write (r : Routine) (line : Int) (b : UInt8) :
    (r.write line b).unlined = r.unlined.write 0 b := by
  rw [unlined_eq, unlined_eq]
  simp only [write, Array.size_push, Array.replicate_succ]

theorem unlined_addConstant (r : Routine) (c : Constant) :
    r.unlined.addConstant c.unlined = ((r.addConstant c).1.unlined, (r.addConstant c).2) := by
  have alike : (fun old : Constant => old.same c.unlined) ∘ Constant.unlined =
      fun old => old.same c := by
    funext old
    exact Constant.same_unlined old c
  have found : r.unlined.constants.findIdx? (fun old => old.same c.unlined) =
      r.constants.findIdx? (fun old => old.same c) := by
    rw [unlined_constants, Array.findIdx?_map, alike]
  simp only [addConstant, found]
  split
  · rfl
  · rw [unlined_eq, unlined_eq]
    simp only [Array.map_push, Array.size_map]

end Routine

def Draft.unlined (d : Draft) : Draft := { d with routine := d.routine.unlined }

namespace Compiler

def unlined (s : Compiler) : Compiler :=
  { s with
    tokens := s.tokens.map Token.unlined
    previous := s.previous.unlined
    current := s.current.unlined
    diagnostics := s.diagnostics.map Diagnostic.unlined
    draft := s.draft.unlined
    enclosing := s.enclosing.map Draft.unlined }

section Primitives

variable (s : Compiler)

@[simp] theorem unlined_locals : s.unlined.draft.locals = s.draft.locals := rfl

@[simp] theorem unlined_depth : s.unlined.draft.depth = s.draft.depth := rfl

@[simp] theorem unlined_loops : s.unlined.draft.loops = s.draft.loops := rfl

@[simp] theorem unlined_lexeme : s.unlined.previous.lexeme = s.previous.lexeme := rfl

@[simp] theorem unlined_kind : s.unlined.previous.kind = s.previous.kind := rfl

@[simp] theorem unlined_ahead : s.unlined.current.kind = s.current.kind := rfl

@[simp] theorem unlined_check (kind : Kind) : s.unlined.check kind = s.check kind := rfl

@[simp] theorem unlined_here : s.unlined.here = s.here := by
  rw [here, here, unlined, Draft.unlined, Routine.unlined_code]

theorem start_unlined (unit : Nat) (tokens : List Token) :
    start unit (tokens.map Token.unlined) = (start unit tokens).unlined := by
  rw [start, start, unlined, Array.map_empty]
  rfl

theorem report_unlined (t : Token) (c : Complaint) :
    s.unlined.report t.unlined c = (s.report t c).unlined := by
  rw [report, report, apply_ite unlined]
  simp only [unlined, Array.map_push]
  rfl

theorem fault_unlined (c : Complaint) : s.unlined.fault c = (s.fault c).unlined :=
  s.report_unlined s.previous c

theorem faultAhead_unlined (c : Complaint) : s.unlined.faultAhead c = (s.faultAhead c).unlined :=
  s.report_unlined s.current c

theorem fetch_unlined (tokens : List Token) :
    fetch (tokens.map Token.unlined) s.unlined = (fetch tokens s).unlined := by
  induction tokens generalizing s with
  | nil => rfl
  | cons t rest ih =>
      rw [List.map_cons, fetch, fetch, report_unlined, ih, apply_ite unlined]
      rfl

theorem advance_unlined : s.unlined.advance = s.advance.unlined :=
  fetch_unlined { s with previous := s.current } s.tokens

theorem consume_unlined (kind : Kind) (c : Complaint) :
    s.unlined.consume kind c = (s.consume kind c).unlined := by
  rw [consume, consume, advance_unlined, faultAhead_unlined, apply_ite unlined]
  rfl

theorem skipToStatement_unlined (fuel : Nat) :
    skipToStatement fuel s.unlined = (skipToStatement fuel s).unlined := by
  induction fuel generalizing s with
  | zero => rfl
  | succ fuel ih =>
      rw [skipToStatement, skipToStatement, advance_unlined, ih, apply_ite unlined]
      rfl

theorem recover_unlined : s.unlined.recover = s.recover.unlined := by
  have skipped := skipToStatement_unlined { s with silent := false } (s.tokens.length + 1)
  rw [recover, recover, apply_ite unlined, ← skipped]
  simp only [unlined, List.length_map]

theorem emit_unlined (b : UInt8) : s.unlined.emit b = (s.emit b).unlined := by
  simp only [emit, unlined, Draft.unlined, Routine.unlined_write]
  rfl

theorem emitOp_unlined (op : Operation) : s.unlined.emitOp op = (s.emitOp op).unlined :=
  s.emit_unlined op.byte

theorem emitWith_unlined (op : Operation) (operand : UInt8) :
    s.unlined.emitWith op operand = (s.emitWith op operand).unlined := by
  rw [emitWith, emitWith, emitOp_unlined, emit_unlined]

theorem emitFalseReturn_unlined : s.unlined.emitFalseReturn = s.emitFalseReturn.unlined := by
  rw [emitFalseReturn, emitFalseReturn, emitOp_unlined, emitOp_unlined]

theorem constant_unlined (c : Constant) :
    s.unlined.constant c.unlined = ((s.constant c).1.unlined, (s.constant c).2) := by
  have added : s.unlined.draft.routine.addConstant c.unlined =
      ((s.draft.routine.addConstant c).1.unlined, (s.draft.routine.addConstant c).2) :=
    s.draft.routine.unlined_addConstant c
  simp only [constant, added]
  split
  · rw [← fault_unlined]
    rfl
  · rfl

theorem emitConstant_unlined (c : Constant) :
    s.unlined.emitConstant c.unlined = (s.emitConstant c).unlined := by
  rw [emitConstant, emitConstant, constant_unlined]
  exact emitWith_unlined _ _ _

theorem emitJump_unlined (op : Operation) : s.unlined.emitJump op = (s.emitJump op).unlined := by
  rw [emitJump, emitJump, emitOp_unlined, emit_unlined, emit_unlined]

theorem complain_unlined {p : Prop} [Decidable p] (c : Complaint) :
    (if p then s.unlined.fault c else s.unlined) = (if p then s.fault c else s).unlined := by
  rw [fault_unlined, apply_ite unlined]

theorem patchJump_unlined (position : Nat) :
    s.unlined.patchJump position = (s.patchJump position).unlined := by
  simp only [patchJump, unlined_here, complain_unlined]
  generalize (if maxJump < s.here - position - 2 then s.fault .jumpTooFar else s) = t
  simp only [unlined, Draft.unlined, Routine.unlined_eq]

theorem emitLoop_unlined (start : Nat) : s.unlined.emitLoop start = (s.emitLoop start).unlined := by
  simp only [emitLoop, emitOp_unlined, unlined_here, complain_unlined, emit_unlined]

theorem emitOps_unlined (ops : List Operation) : s.unlined.emitOps ops = (s.emitOps ops).unlined := by
  rw [emitOps, emitOps]
  induction ops generalizing s with
  | nil => rfl
  | cons op rest ih => rw [List.foldl_cons, List.foldl_cons, emitOp_unlined, ih]

theorem emitPops_unlined (n : Nat) : s.unlined.emitPops n = (s.emitPops n).unlined := by
  unfold emitPops
  split
  · rfl
  · exact emitOp_unlined s _
  · exact emitWith_unlined s _ _

theorem beginScope_unlined : s.unlined.beginScope = s.beginScope.unlined := rfl

theorem endScope_unlined : s.unlined.endScope = s.endScope.unlined := by
  rw [endScope, endScope]
  exact emitPops_unlined { s with draft := { s.draft with
    depth := s.draft.depth - 1
    locals := s.draft.locals.dropWhile (Local.isDeeper (s.draft.depth - 1)) } } _

theorem addLocal_unlined (name : String) : s.unlined.addLocal name = (s.addLocal name).unlined := by
  rw [addLocal, addLocal, fault_unlined, apply_ite unlined]
  rfl

theorem declareVariable_unlined : s.unlined.declareVariable = s.declareVariable.unlined := by
  rw [declareVariable, declareVariable]
  by_cases outermost : s.draft.depth = 0
  · rw [if_pos outermost]
    exact if_pos outermost
  · rw [if_neg outermost, ← addLocal_unlined]
    refine (if_neg outermost).trans ?_
    exact congrArg (addLocal · s.previous.lexeme) (complain_unlined s _)

theorem markInitialized_unlined : s.unlined.markInitialized = s.markInitialized.unlined := by
  rw [markInitialized, markInitialized, apply_ite unlined]
  cases locals : s.draft.locals with
  | nil => simp only [unlined, Draft.unlined, locals]
  | cons l rest => simp only [unlined, Draft.unlined, locals]

theorem pushLoop_unlined (start : Nat) : s.unlined.pushLoop start = (s.pushLoop start).unlined := rfl

theorem popLoop_unlined : s.unlined.popLoop = s.popLoop.unlined := by
  have patched : ∀ (positions : List Nat) (t : Compiler),
      positions.foldl patchJump t.unlined = (positions.foldl patchJump t).unlined := by
    intro positions
    induction positions with
    | nil => exact fun _ => rfl
    | cons position rest ih =>
        intro t
        rw [List.foldl_cons, List.foldl_cons, patchJump_unlined, ih]
  unfold popLoop
  cases loops : s.draft.loops with
  | nil => simp only [unlined, Draft.unlined, loops]
  | cons loop rest =>
      have opened := patched loop.breaks { s with draft := { s.draft with loops := rest } }
      simp only [unlined, Draft.unlined, loops] at opened ⊢
      exact opened

theorem addBreak_unlined (position : Nat) :
    s.unlined.addBreak position = (s.addBreak position).unlined := by
  unfold addBreak
  cases loops : s.draft.loops with
  | nil => simp only [unlined, Draft.unlined, loops]
  | cons loop rest => simp only [unlined, Draft.unlined, loops]

theorem discardLoopLocals_unlined (loop : Loop) :
    s.unlined.discardLoopLocals loop = (s.discardLoopLocals loop).unlined :=
  emitPops_unlined s _

theorem parseVariable_unlined (c : Complaint) :
    s.unlined.parseVariable c = ((s.parseVariable c).1.unlined, (s.parseVariable c).2) := by
  simp only [parseVariable, consume_unlined, declareVariable_unlined]
  generalize (s.consume .identifier c).declareVariable = t
  have named := t.constant_unlined (.text t.previous.lexeme)
  by_cases inside : 0 < t.draft.depth
  · rw [if_pos inside]
    exact if_pos inside
  · rw [if_neg inside, ← named]
    exact if_neg inside

theorem defineVariable_unlined (global : UInt8) :
    s.unlined.defineVariable global = (s.defineVariable global).unlined := by
  rw [defineVariable, defineVariable, markInitialized_unlined, emitWith_unlined, apply_ite unlined]
  rfl

theorem numberLiteral_unlined : s.unlined.numberLiteral = s.numberLiteral.unlined := by
  have same : s.unlined.previous.lexeme = s.previous.lexeme := rfl
  rw [numberLiteral, numberLiteral, same]
  split
  · exact emitConstant_unlined s (.number _)
  · exact fault_unlined s _

theorem access_unlined : s.unlined.access = (s.access.1.unlined, s.access.2) := by
  have same : findSlot s.unlined.previous.lexeme s.unlined.draft.locals =
      findSlot s.previous.lexeme s.draft.locals := rfl
  rw [access, access, same]
  split
  · rw [fault_unlined, ← apply_ite unlined]
  · have named := s.constant_unlined (.text s.previous.lexeme)
    simp only [Constant.unlined] at named
    exact congrArg (fun p : Compiler × UInt8 => (p.1, Access.mk .loadGlobal .assignGlobal p.2)) named

theorem openRoutine_unlined (name : String) :
    s.unlined.openRoutine name = (s.openRoutine name).unlined := rfl

theorem closeRoutine_unlined : s.unlined.closeRoutine = s.closeRoutine.unlined := by
  rw [closeRoutine, closeRoutine]
  cases enclosing : s.enclosing with
  | nil => simp only [unlined, enclosing, List.map_nil]
  | cons outer rest =>
      have closed := emitConstant_unlined { s with draft := outer, enclosing := rest }
        (.routine s.draft.routine)
      simp only [unlined, enclosing, List.map_cons]
      exact closed

theorem addParameter_unlined : s.unlined.addParameter = s.addParameter.unlined := by
  have counted : ({ s.unlined with draft := { s.unlined.draft with
      routine := { s.unlined.draft.routine with arity := s.unlined.draft.routine.arity + 1 } } } :
        Compiler) =
      unlined { s with draft := { s.draft with
        routine := { s.draft.routine with arity := s.draft.routine.arity + 1 } } } := by
    simp only [unlined, Draft.unlined, Routine.unlined_eq]
  have arity : s.unlined.draft.routine.arity = s.draft.routine.arity := Routine.unlined_arity _
  simp only [] at counted
  simp only [addParameter]
  rw [counted, arity, faultAhead_unlined, ← apply_ite unlined, parseVariable_unlined]
  exact markInitialized_unlined _

theorem parameters_unlined (fuel : Nat) :
    parameters fuel s.unlined = (parameters fuel s).unlined := by
  induction fuel generalizing s with
  | zero => rfl
  | succ fuel ih =>
      rw [parameters, parameters]
      simp only [addParameter_unlined, advance_unlined, unlined_check, ih, apply_ite unlined]

theorem parameterList_unlined (fuel : Nat) :
    parameterList fuel s.unlined = (parameterList fuel s).unlined := by
  simp only [parameterList, consume_unlined, unlined_check, parameters_unlined, ← apply_ite unlined]

end Primitives

structure ExpressionUnlined (fuel : Nat) : Prop where
  expression : ∀ s, expression fuel s.unlined = (expression fuel s).unlined
  climb : ∀ level s, climb fuel level s.unlined = (climb fuel level s).unlined
  operand : ∀ assignable s, operand fuel assignable s.unlined = (operand fuel assignable s).unlined
  named : ∀ assignable s, named fuel assignable s.unlined = (named fuel assignable s).unlined
  operators : ∀ level s, operators fuel level s.unlined = (operators fuel level s).unlined
  operator : ∀ s, operator fuel s.unlined = (operator fuel s).unlined
  arguments : ∀ count s, arguments fuel count s.unlined =
    ((arguments fuel count s).1.unlined, (arguments fuel count s).2)

namespace ExpressionUnlined

variable {fuel : Nat} (ih : ExpressionUnlined fuel) (s : Compiler)

include ih

theorem climb_succ (level : Precedence) :
    Compiler.climb (fuel + 1) level s.unlined = (Compiler.climb (fuel + 1) level s).unlined := by
  rw [Compiler.climb, Compiler.climb]
  simp only [advance_unlined, fault_unlined, ih.operand, ih.operators, unlined_kind, unlined_ahead,
    ← apply_ite unlined]

theorem operand_succ (assignable : Bool) : Compiler.operand (fuel + 1) assignable s.unlined =
    (Compiler.operand (fuel + 1) assignable s).unlined := by
  rw [Compiler.operand, Compiler.operand, unlined_kind]
  split
  · exact numberLiteral_unlined s
  · exact emitOp_unlined s _
  · exact emitOp_unlined s _
  · rw [ih.expression, consume_unlined]
  · rw [ih.climb, emitOp_unlined]
  · rw [ih.climb, emitOp_unlined]
  · exact ih.named assignable s
  · rfl

theorem named_succ (assignable : Bool) : Compiler.named (fuel + 1) assignable s.unlined =
    (Compiler.named (fuel + 1) assignable s).unlined := by
  rw [Compiler.named, Compiler.named, access_unlined]
  generalize s.access = found
  obtain ⟨t, v⟩ := found
  have assigned : (assignable && t.unlined.check .equal) = (assignable && t.check .equal) := rfl
  dsimp only
  rw [assigned, unlined_ahead]
  split
  · rw [advance_unlined, ih.expression, emitWith_unlined]
  · split
    · rw [advance_unlined, emitWith_unlined, ih.expression, emitOp_unlined, emitWith_unlined]
    · exact emitWith_unlined _ _ _

theorem operators_succ (level : Precedence) : Compiler.operators (fuel + 1) level s.unlined =
    (Compiler.operators (fuel + 1) level s).unlined := by
  rw [Compiler.operators, Compiler.operators]
  simp only [advance_unlined, ih.operator, ih.operators, unlined_ahead, ← apply_ite unlined]

theorem operator_succ :
    Compiler.operator (fuel + 1) s.unlined = (Compiler.operator (fuel + 1) s).unlined := by
  rw [Compiler.operator, Compiler.operator, unlined_kind]
  split
  · rw [unlined_check, ih.arguments]
    cases s.check .rightParen with
    | true => exact (congrArg (emitWith · _ _) (consume_unlined _ _ _)).trans (emitWith_unlined _ _ _)
    | false => exact (congrArg (emitWith · _ _) (consume_unlined _ _ _)).trans (emitWith_unlined _ _ _)
  · simp only [unlined_here, emitJump_unlined, emitOp_unlined, ih.climb, patchJump_unlined]
  · simp only [unlined_here, emitJump_unlined, emitOp_unlined, ih.climb, patchJump_unlined]
  · rw [ih.climb, emitOps_unlined]

theorem arguments_succ (count : Nat) : Compiler.arguments (fuel + 1) count s.unlined =
    ((Compiler.arguments (fuel + 1) count s).1.unlined,
      (Compiler.arguments (fuel + 1) count s).2) := by
  rw [Compiler.arguments, Compiler.arguments]
  simp only [ih.expression, complain_unlined, unlined_check, advance_unlined, ih.arguments]
  generalize (if count = maxArguments then (Compiler.expression fuel s).fault .tooManyArguments
    else Compiler.expression fuel s) = t
  split
  · rfl
  · rfl

end ExpressionUnlined

theorem expressionUnlined (fuel : Nat) : ExpressionUnlined fuel := by
  induction fuel with
  | zero => constructor <;> intros <;> rfl
  | succ fuel ih =>
      exact {
        expression := fun s => ih.climb _ s
        climb := fun level s => ih.climb_succ s level
        operand := fun assignable s => ih.operand_succ s assignable
        named := fun assignable s => ih.named_succ s assignable
        operators := fun level s => ih.operators_succ s level
        operator := ih.operator_succ
        arguments := fun count s => ih.arguments_succ s count }

section Clauses

variable (fuel : Nat) (s : Compiler)

theorem expression_unlined : expression fuel s.unlined = (expression fuel s).unlined :=
  (expressionUnlined fuel).expression s

theorem printStatement_unlined :
    printStatement fuel s.unlined = (printStatement fuel s).unlined := by
  rw [printStatement, printStatement, expression_unlined, consume_unlined, emitOp_unlined]

theorem expressionStatement_unlined :
    expressionStatement fuel s.unlined = (expressionStatement fuel s).unlined := by
  rw [expressionStatement, expressionStatement, expression_unlined, consume_unlined, emitOp_unlined]

theorem varDeclaration_unlined :
    varDeclaration fuel s.unlined = (varDeclaration fuel s).unlined := by
  simp only [varDeclaration, parseVariable_unlined, unlined_check, advance_unlined,
    expression_unlined, emitOp_unlined, ← apply_ite unlined, consume_unlined, defineVariable_unlined]

theorem breakStatement_unlined : s.unlined.breakStatement = s.breakStatement.unlined := by
  rw [breakStatement, breakStatement, unlined_loops]
  split
  · rw [fault_unlined, consume_unlined]
  · simp only [consume_unlined, discardLoopLocals_unlined, emitJump_unlined, unlined_here,
      addBreak_unlined]

theorem continueStatement_unlined : s.unlined.continueStatement = s.continueStatement.unlined := by
  rw [continueStatement, continueStatement, unlined_loops]
  split
  · rw [fault_unlined, consume_unlined]
  · simp only [consume_unlined, discardLoopLocals_unlined, emitLoop_unlined]

theorem returnStatement_unlined :
    returnStatement fuel s.unlined = (returnStatement fuel s).unlined := by
  have outside : s.unlined.enclosing.isEmpty = s.enclosing.isEmpty := List.isEmpty_map
  rw [returnStatement, returnStatement]
  simp only [outside, complain_unlined, unlined_check, advance_unlined, emitFalseReturn_unlined,
    expression_unlined, consume_unlined, emitOp_unlined, ← apply_ite unlined]

theorem forInitializer_unlined :
    forInitializer fuel s.unlined = (forInitializer fuel s).unlined := by
  rw [forInitializer, forInitializer]
  simp only [unlined_check, advance_unlined, varDeclaration_unlined, expressionStatement_unlined,
    ← apply_ite unlined]

theorem forCondition_unlined : forCondition fuel s.unlined =
    ((forCondition fuel s).1.unlined, (forCondition fuel s).2) := by
  unfold forCondition
  simp only [unlined_check, advance_unlined, expression_unlined, consume_unlined, emitJump_unlined,
    emitOp_unlined, unlined_here]
  split
  · rfl
  · rfl

theorem forIncrement_unlined (start : Nat) : forIncrement fuel start s.unlined =
    ((forIncrement fuel start s).1.unlined, (forIncrement fuel start s).2) := by
  unfold forIncrement
  simp only [unlined_check, advance_unlined, expression_unlined, consume_unlined, emitJump_unlined,
    emitOp_unlined, emitLoop_unlined, patchJump_unlined, unlined_here]
  split
  · rfl
  · rfl

end Clauses

structure StatementUnlined (fuel : Nat) : Prop where
  declaration : ∀ s, declaration fuel s.unlined = (declaration fuel s).unlined
  functionDeclaration : ∀ s,
    functionDeclaration fuel s.unlined = (functionDeclaration fuel s).unlined
  function : ∀ name s, function fuel name s.unlined = (function fuel name s).unlined
  block : ∀ s, block fuel s.unlined = (block fuel s).unlined
  statement : ∀ s, statement fuel s.unlined = (statement fuel s).unlined
  ifStatement : ∀ s, ifStatement fuel s.unlined = (ifStatement fuel s).unlined
  whileStatement : ∀ s, whileStatement fuel s.unlined = (whileStatement fuel s).unlined
  forStatement : ∀ s, forStatement fuel s.unlined = (forStatement fuel s).unlined

namespace StatementUnlined

variable {fuel : Nat} (ih : StatementUnlined fuel) (s : Compiler)

include ih

theorem declaration_succ :
    Compiler.declaration (fuel + 1) s.unlined = (Compiler.declaration (fuel + 1) s).unlined := by
  rw [Compiler.declaration, Compiler.declaration]
  simp only [unlined_check, advance_unlined, ih.functionDeclaration, varDeclaration_unlined,
    ih.statement, ← apply_ite unlined, recover_unlined]

theorem functionDeclaration_succ : Compiler.functionDeclaration (fuel + 1) s.unlined =
    (Compiler.functionDeclaration (fuel + 1) s).unlined := by
  rw [Compiler.functionDeclaration, Compiler.functionDeclaration]
  simp only [parseVariable_unlined, markInitialized_unlined, unlined_lexeme, ih.function,
    defineVariable_unlined]

theorem function_succ (name : String) :
    Compiler.function (fuel + 1) name s.unlined = (Compiler.function (fuel + 1) name s).unlined := by
  rw [Compiler.function, Compiler.function]
  simp only [openRoutine_unlined, beginScope_unlined, parameterList_unlined, unlined_check,
    advance_unlined, expression_unlined, consume_unlined, emitOp_unlined, ih.block,
    emitFalseReturn_unlined, ← apply_ite unlined, closeRoutine_unlined]

theorem block_succ : Compiler.block (fuel + 1) s.unlined = (Compiler.block (fuel + 1) s).unlined := by
  rw [Compiler.block, Compiler.block]
  simp only [unlined_check, consume_unlined, ih.declaration, ih.block, ← apply_ite unlined]

theorem statement_succ :
    Compiler.statement (fuel + 1) s.unlined = (Compiler.statement (fuel + 1) s).unlined := by
  rw [Compiler.statement, Compiler.statement, unlined_ahead, advance_unlined]
  split
  · exact printStatement_unlined _ _
  · exact ih.ifStatement _
  · exact ih.whileStatement _
  · exact ih.forStatement _
  · exact breakStatement_unlined _
  · exact continueStatement_unlined _
  · exact returnStatement_unlined _ _
  · rw [beginScope_unlined, ih.block, endScope_unlined]
  · exact expressionStatement_unlined _ _

theorem ifStatement_succ :
    Compiler.ifStatement (fuel + 1) s.unlined = (Compiler.ifStatement (fuel + 1) s).unlined := by
  rw [Compiler.ifStatement, Compiler.ifStatement]
  simp only [expression_unlined, consume_unlined, unlined_here, emitJump_unlined, emitOp_unlined,
    ih.statement, patchJump_unlined, unlined_check, advance_unlined, ← apply_ite unlined]

theorem whileStatement_succ : Compiler.whileStatement (fuel + 1) s.unlined =
    (Compiler.whileStatement (fuel + 1) s).unlined := by
  rw [Compiler.whileStatement, Compiler.whileStatement]
  simp only [expression_unlined, consume_unlined, unlined_here, emitJump_unlined, emitOp_unlined,
    pushLoop_unlined, ih.statement, emitLoop_unlined, patchJump_unlined, popLoop_unlined]

theorem forStatement_succ :
    Compiler.forStatement (fuel + 1) s.unlined = (Compiler.forStatement (fuel + 1) s).unlined := by
  rw [Compiler.forStatement, Compiler.forStatement]
  simp only [beginScope_unlined, forInitializer_unlined, unlined_here, forCondition_unlined,
    forIncrement_unlined, pushLoop_unlined, ih.statement, emitLoop_unlined]
  split
  · rw [patchJump_unlined, emitOp_unlined, popLoop_unlined, endScope_unlined]
  · rw [popLoop_unlined, endScope_unlined]

end StatementUnlined

theorem statementUnlined (fuel : Nat) : StatementUnlined fuel := by
  induction fuel with
  | zero => constructor <;> intros <;> rfl
  | succ fuel ih =>
      exact {
        declaration := ih.declaration_succ
        functionDeclaration := ih.functionDeclaration_succ
        function := fun name s => ih.function_succ s name
        block := ih.block_succ
        statement := ih.statement_succ
        ifStatement := ih.ifStatement_succ
        whileStatement := ih.whileStatement_succ
        forStatement := ih.forStatement_succ }

theorem declarations_unlined (fuel : Nat) (s : Compiler) :
    declarations fuel s.unlined = (declarations fuel s).unlined := by
  induction fuel generalizing s with
  | zero => rfl
  | succ fuel ih =>
      rw [declarations, declarations]
      simp only [unlined_check, advance_unlined, (statementUnlined fuel).declaration, ih,
        ← apply_ite unlined]

end Compiler

def unlinedOutcome : Except (List Diagnostic) Routine → Except (List Diagnostic) Routine
  | .ok r => .ok r.unlined
  | .error ds => .error (ds.map Diagnostic.unlined)

namespace Compiler

theorem finish_unlined (s : Compiler) : s.unlined.finish = unlinedOutcome s.finish := by
  have empty : s.unlined.diagnostics.isEmpty = s.diagnostics.isEmpty := by
    simp only [unlined, Array.isEmpty, Array.size_map]
  rw [finish, finish, empty]
  split
  · rfl
  · simp only [unlinedOutcome, unlined, Array.toList_map]

variable (unit : Nat) (tokens : List Token)

theorem script_unlined :
    script unit (tokens.map Token.unlined) = unlinedOutcome (script unit tokens) := by
  simp only [script, start_unlined, advance_unlined, declarations_unlined, emitFalseReturn_unlined,
    finish_unlined, fuelFor, List.length_map]

theorem singleExpression_unlined : singleExpression unit (tokens.map Token.unlined) =
    unlinedOutcome (singleExpression unit tokens) := by
  simp only [singleExpression, start_unlined, advance_unlined, expression_unlined, consume_unlined,
    emitOp_unlined, finish_unlined, fuelFor, List.length_map]

end Compiler

/-- Outcomes that differ in nothing but lines: in the tables of the routine and of the routines in it, or
in the diagnostics. -/
inductive AlikeButLines : (a b : Except (List Diagnostic) Routine) → Prop where
  | accepted {r q : Routine} (same : r.unlined = q.unlined) : AlikeButLines (.ok r) (.ok q)
  | rejected {ds es : List Diagnostic} (same : ds.map Diagnostic.unlined = es.map Diagnostic.unlined) :
    AlikeButLines (.error ds) (.error es)

theorem alikeButLines_of_unlined {a b : Except (List Diagnostic) Routine}
    (same : unlinedOutcome a = unlinedOutcome b) : AlikeButLines a b := by
  cases a with
  | ok r =>
      cases b with
      | ok q => exact .accepted (Except.ok.inj same)
      | error es => cases same
  | error ds =>
      cases b with
      | ok q => cases same
      | error es => exact .rejected (Except.error.inj same)

theorem map_unlined_of_spelling {ts us : List Token}
    (same : ts.map Token.spelling = us.map Token.spelling) :
    ts.map Token.unlined = us.map Token.unlined := by
  have erased : Token.unlined = (fun p : Kind × String => ⟨p.1, p.2, 0, 0, 0⟩) ∘ Token.spelling := rfl
  rw [erased, ← List.map_map, ← List.map_map, same]

/-- Layout does not matter. Sources whose tokens are spelled alike have the same outcome but for lines,
as scripts and as expressions, and space put in where a token begins or ends changes no spelling. -/
theorem layout_immaterial :
    (∀ unit a b, (scan a).map Token.spelling = (scan b).map Token.spelling →
      AlikeButLines (compileBytes unit a) (compileBytes unit b) ∧
        AlikeButLines (compileExpressionBytes unit a) (compileExpressionBytes unit b)) ∧
    ∀ front spacing rest, Spacing spacing →
      (∃ t ∈ scan (front ++ rest), t.start = front.length ∨ t.stop = front.length) →
      (scan (front ++ spacing ++ rest)).map Token.spelling =
        (scan (front ++ rest)).map Token.spelling := by
  constructor
  · intro unit a b same
    have bare := map_unlined_of_spelling same
    constructor
    · apply alikeButLines_of_unlined
      rw [compileBytes, compileBytes, ← Compiler.script_unlined, bare, Compiler.script_unlined]
    · apply alikeButLines_of_unlined
      rw [compileExpressionBytes, compileExpressionBytes, ← Compiler.singleExpression_unlined, bare,
        Compiler.singleExpression_unlined]
  · intro front spacing rest spaces boundary
    exact scan_spaced spaces boundary

/-- A comment is put between a slash and what it divides by. -/
theorem layout_immaterial_comment :
    Spacing (bytesOf "\t// half\n") ∧
    (∃ t ∈ scan (bytesOf "1/" ++ bytesOf ".5;"), t.stop = (bytesOf "1/").length) ∧
    (scan (bytesOf "1/" ++ bytesOf "\t// half\n" ++ bytesOf ".5;")).map Token.spelling =
      (scan (bytesOf "1/" ++ bytesOf ".5;")).map Token.spelling ∧
    AlikeButLines (compileBytes 0 (bytesOf "1/" ++ bytesOf "\t// half\n" ++ bytesOf ".5;"))
      (compileBytes 0 (bytesOf "1/" ++ bytesOf ".5;")) := by
  have parts : Spacing (bytesOf "\t" ++ bytesOf "// half\n") :=
    .intro (by decide) (List.forall_mem_singleton.mpr rfl) (.inr ⟨bytesOf " half", by decide, by decide⟩)
  have spaces : Spacing (bytesOf "\t// half\n") := parts
  have boundary : (⟨.slash, "/", 1, 1, 2⟩ : Token) ∈ scan (bytesOf "1/" ++ bytesOf ".5;") := by decide
  have same := layout_immaterial.2 (bytesOf "1/") (bytesOf "\t// half\n") (bytesOf ".5;") spaces
    ⟨_, boundary, .inr rfl⟩
  exact ⟨spaces, ⟨_, boundary, rfl⟩, same, (layout_immaterial.1 0 _ _ same).1⟩

end Reckoner
