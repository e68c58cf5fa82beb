import Reckoner.Proofs.Compiler.Locals

/-!
Statements and clauses without statements inside.
-/

namespace Reckoner.Compiler

open Script

def fresh (s : Compiler) (names : List String) : List Local :=
  names.map fun name => ⟨name, some s.draft.depth⟩

/-- From `s` to `t` a piece of the source was read that declares names in the current scope. -/
structure Declares (s t : Compiler) (names : List String) (code : Pool → List Slot)
    (fs : List Function) : Prop extends Advance s t (fresh s names) code fs where
  room : t.draft.locals.length ≤ maxLocals
  shorter : t.tokens.length < s.tokens.length

theorem fresh_declared (s : Compiler) (name : String) :
    declared s.draft.depth name (some s.draft.depth) =
      fresh s (if (s.draft.depth == 0) = true then [] else [name]) := by
  rw [declared, fresh]
  by_cases outside : s.draft.depth = 0
  · rw [if_pos outside, if_pos (by rw [outside]; rfl)]
    rfl
  · rw [if_neg outside, if_neg (by simpa using outside)]
    rfl

theorem scopeOf_declared (depth : Nat) (name : String) (locals : List Local) :
    scopeOf (declared depth name none ++ locals) = scopeOf locals := by
  rw [declared]
  split
  · rfl
  · rw [List.singleton_append, scopeOf, List.dropWhile_cons_of_pos (by rfl)]
    rfl

theorem Ready.advanced {s : Compiler} (ready : Ready s) (more : s.current.kind ≠ .eof)
    (done : s.advance.diagnostics = #[]) :
    Advance s s.advance [] (fun _ => []) [] ∧ s.advance.stream = s.tokens ∧
      s.advance.tokens.length < s.tokens.length := by
  obtain ⟨progress, kept, -, stream, shorter⟩ := ready.advance_progress more done
  have stage : Stage s s.advance fun _ => fixedSlots [] :=
    { toProgress := progress, toKept := kept, fewer := by omega }
  exact ⟨.of_stage stage, stream, by omega⟩

section

variable {s t : Compiler} {added : List Local} {code : Pool → List Slot} {fs : List Function}
  {fuel : Nat}

theorem Ready.expressionThen (ready : Ready t) (room : t.draft.locals.length ≤ maxLocals)
    (enough : 16 * t.tokens.length + 2 ≤ fuel) {kind : Kind} {c : Complaint}
    (notEnd : kind ≠ .eof) (done : ((expression fuel t).consume kind c).diagnostics = #[]) :
    ∃ e, Reader.expressionThen fuel kind t.stream =
        some (e, ((expression fuel t).consume kind c).stream) ∧
      Stage t ((expression fuel t).consume kind c)
        (fun pool => fixedSlots (e.code pool t.scope)) ∧
      ((expression fuel t).consume kind c).tokens.length < t.tokens.length := by
  have clean := (reports_consume _ _ _).clean done
  obtain ⟨e, read, stage⟩ := (expressionReads fuel).expression ready room enough clean
  obtain ⟨consumed, expected, shorter⟩ := stage.consume notEnd done
  refine ⟨e, ?_, consumed, Nat.lt_of_lt_of_le shorter stage.fewer⟩
  rw [Reader.expressionThen, read]
  simp only [Option.bind_eq_bind, Option.bind_some, expected]

end

section Statements

variable {s : Compiler} {fuel : Nat} (ready : Ready s) (shape : Scoped s)
  (enough : 16 * s.tokens.length + 2 ≤ fuel)

include ready shape enough

theorem Ready.valueStatement {c : Complaint} {op : Operation} (plain : op.operand = .none)
    (done : (((expression fuel s).consume .semicolon c).emitOp op).diagnostics = #[]) :
    ∃ e, Reader.expressionThen fuel .semicolon s.stream =
        some (e, (((expression fuel s).consume .semicolon c).emitOp op).stream) ∧
      Declares s (((expression fuel s).consume .semicolon c).emitOp op) []
        (fun pool => fixedSlots (e.code pool s.scope ++ [⟨op, 0⟩])) [] := by
  obtain ⟨e, read, stage, shorter⟩ := ready.expressionThen shape.room enough (by decide) done
  have whole := (Advance.of_stage stage).emitOp op plain
  refine ⟨e, read, whole.congr fun pool _ => ?_, ?_, shorter⟩
  · rw [fixedSlots_append]
  · exact stage.room shape.room

theorem Ready.varDeclaration (positive : 1 ≤ s.previous.line)
    (done : (varDeclaration fuel s).diagnostics = #[]) :
    ∃ name value, Reader.variableRest fuel s.stream =
        some (name, value, (Compiler.varDeclaration fuel s).stream) ∧
      Declares s (Compiler.varDeclaration fuel s)
        (if (s.draft.depth == 0) = true then [] else [name])
        (fun pool => fixedSlots
          (codeOfOptional pool s.scope value ++ defineCode pool (s.draft.depth == 0) name)) [] := by
  simp only [Compiler.varDeclaration] at done ⊢
  have cleanEnd := (reports_defineVariable _ _).clean done
  have cleanValue := (reports_consume _ _ _).clean cleanEnd
  have cleanName : (s.parseVariable .expectVariableName).1.diagnostics = #[] := by
    split at cleanValue
    · exact ((reports_advance _).trans (reports_expression _ _)).clean cleanValue
    · exact cleanValue
  obtain ⟨name, readName, -, shorter, room, declares, names⟩ :=
    (Advance.refl ready positive).parseVariable shape.room cleanName
  have scopes : (s.parseVariable .expectVariableName).1.scope = s.scope := by
    rw [scope, declares.locals]
    exact scopeOf_declared s.draft.depth name s.draft.locals
  generalize s.parseVariable .expectVariableName = parsed at *
  obtain ⟨t, byte⟩ := parsed
  dsimp only at *
  generalize valueEq : (if t.check .equal = true then expression fuel t.advance
    else t.emitOp .false) = u at *
  obtain ⟨value, readValue, stage⟩ : ∃ value,
      Reader.variableRest fuel s.stream = (do
        let ts ← Reader.expect .semicolon u.stream
        some (name, value, ts)) ∧
      Stage t u fun pool => fixedSlots (codeOfOptional pool s.scope value) := by
    rw [Reader.variableRest, readName]
    simp only [Option.bind_eq_bind, Option.bind_some, kindAt_stream, drop_stream]
    by_cases isEqual : t.check .equal = true
    · rw [if_pos isEqual] at valueEq
      subst valueEq
      have more : t.current.kind ≠ .eof := by
        rw [eq_of_beq isEqual]
        decide
      have cleanAdvance := (reports_expression _ _).clean cleanValue
      obtain ⟨-, stream, fewer⟩ := declares.ready.advanced more cleanAdvance
      have passed := declares.start.advance more cleanAdvance
      obtain ⟨e, read, whole⟩ := (expressionReads fuel).expression passed.ready
        (passed.room room) (by omega) cleanValue
      rw [passed.toKept.scope_eq, scopes] at whole
      refine ⟨some e, ?_, passed.trans whole⟩
      refine (if_pos isEqual).trans ?_
      rw [Reader.expressionThen, ← stream, read]
      simp only [Option.bind_eq_bind, Option.bind_some, Option.bind_assoc]
    · rw [if_neg isEqual] at valueEq
      subst valueEq
      exact ⟨none, if_neg isEqual, declares.start.emitOp .false rfl⟩
  obtain ⟨consumed, expected, fewer⟩ := stage.consume (by decide) cleanEnd
  obtain ⟨defined, stream, sameRoom⟩ := (declares.andThen consumed).defineVariable fun outside =>
    (names outside).later consumed.writes.grown
  refine ⟨name, value, ?_, ?_, ?_, ?_⟩
  · rw [readValue, expected, stream]
    rfl
  · rw [fresh_declared] at defined
    exact defined.congr fun pool _ => (fixedSlots_append _ _).symm
  · rw [sameRoom]
    exact consumed.room room
  · rw [SameInput.of_stream stream]
    have fewerU := stage.fewer
    omega

end Statements

/-! Ways out of a loop -/

/-- A jump whose distance is open may be seen as an exit of the loop around it. -/
theorem Progress.open_exit {s t : Compiler}
    (p : Progress s t fun _ => [.fixed ⟨.jump, Slot.unset⟩]) : Progress s t fun _ => [.exit] := by
  obtain ⟨items, emitted, settled⟩ := p.writes
  obtain ⟨slots, -⟩ := settled t.pool (.refl _)
  obtain ⟨item, rest, rfl, slot, none⟩ := List.map_eq_cons_iff.mp slots
  obtain ⟨fixed, line⟩ := item
  rw [List.map_eq_nil_iff] at none
  dsimp only at slot
  subst none slot
  refine ⟨p.ready, p.positive, [⟨.exit, line⟩], ?_, fun _ _ => ⟨rfl, ?_⟩⟩
  · exact ⟨emitted.code, emitted.lines, emitted.ordered, emitted.positive, emitted.header,
      emitted.grown, emitted.unit, emitted.enclosing⟩
  · intro slot member
    rw [List.mem_singleton.mp member]
    trivial

theorem Scoped.discarded {s : Compiler} (shape : Scoped s) (depth : Nat) :
    (s.draft.locals.dropLast.takeWhile (Local.isDeeper depth)).length =
      s.scope.length - (s.draft.locals.dropLast.dropWhile (Local.isDeeper depth)).length := by
  have parts := congrArg List.length
    (s.draft.locals.dropLast.takeWhile_append_dropWhile (p := Local.isDeeper depth))
  rw [List.length_append] at parts
  rw [shape.scope_eq, List.length_map]
  omega

section Jumps

variable {s : Compiler} (ready : Ready s) (positive : 1 ≤ s.previous.line) (shape : Scoped s)

include ready positive shape

theorem Ready.discardLoopLocals {loop : Loop} {c : Complaint}
    (done : ((s.consume .semicolon c).discardLoopLocals loop).diagnostics = #[]) :
    Reader.expect .semicolon s.stream =
        some ((s.consume .semicolon c).discardLoopLocals loop).stream ∧
      Advance s ((s.consume .semicolon c).discardLoopLocals loop) []
        (fun _ => fixedSlots (popCode (s.scope.length -
          (s.draft.locals.dropLast.dropWhile (Local.isDeeper loop.depth)).length))) [] ∧
      ((s.consume .semicolon c).discardLoopLocals loop).tokens.length < s.tokens.length := by
  have clean := (reports_discardLoopLocals _ loop).clean done
  obtain ⟨consumed, expected, shorter⟩ :=
    (Advance.refl ready positive).consume (by decide) clean
  have locals : (s.consume .semicolon c).draft.locals = s.draft.locals := consumed.locals
  have count := shape.discarded loop.depth
  have length := shape.scope_length
  have room := shape.room
  obtain ⟨popped, stream⟩ := consumed.emitPops (n := (s.draft.locals.dropLast.takeWhile
    (Local.isDeeper loop.depth)).length) (by simp only [maxLocals] at room; omega)
  rw [Compiler.discardLoopLocals, locals]
  refine ⟨by rw [stream]; exact expected, ?_, ?_⟩
  · rw [count] at popped ⊢
    exact popped
  · rw [SameInput.of_stream stream]
    exact shorter

theorem Ready.breakStatement (done : s.breakStatement.diagnostics = #[]) :
    Reader.expect .semicolon s.stream = some s.breakStatement.stream ∧
      Declares s s.breakStatement []
        (fun pool => Statement.break.code pool s.unit s.scope s.site s.here) [] := by
  unfold Compiler.breakStatement at done ⊢
  cases loopsEq : s.draft.loops with
  | nil =>
      rw [loopsEq] at done
      have clean := (reports_consume _ _ _).clean done
      exact absurd clean (fault_diagnostics_ne ready.audible _)
  | cons loop rest =>
      rw [loopsEq] at done
      simp only [] at done ⊢
      have clean := ((Reports.refl _).emitJump .jump |>.trans (reports_addBreak _ _)).clean done
      obtain ⟨expected, popped, shorter⟩ := ready.discardLoopLocals positive shape clean
      generalize (s.consume .semicolon .expectSemicolonAfterBreak).discardLoopLocals loop = t at *
      obtain ⟨progress, kept, input⟩ := popped.ready.emitJump_progress popped.positive
        (show Operation.jump.operand = .jump from rfl)
      have outer : t.draft.loops = loop :: rest := by
        rw [popped.loops, exitsFrom_fixedSlots, addBreaks_nil, loopsEq]
      have noted : (t.emitJump .jump).addBreak (t.here + 1) =
          (t.emitJump .jump).reframe t.draft.locals t.draft.depth
            ({ loop with breaks := loop.breaks ++ [t.here + 1] } :: rest) := by
        rw [addBreak, kept.loops, outer]
        rfl
      have opened : Pass t (t.emitJump .jump) (fun _ => [.exit]) [] :=
        (Pass.of_stage (.of_step ⟨progress, kept, input⟩)).kept progress.open_exit rfl rfl rfl
      have exit : Advance t ((t.emitJump .jump).addBreak (t.here + 1)) [] (fun _ => [.exit]) [] := by
        rw [noted]
        refine { toPass := opened.reframe t.draft.locals t.draft.locals t.draft.depth t.draft.depth
                  t.draft.loops _
                 locals := rfl
                 depth := rfl
                 loops := ?_ }
        rw [outer]
        rfl
      have whole := popped.trans exit
      have stream : ((t.emitJump .jump).addBreak (t.here + 1)).stream = t.stream := by
        rw [noted]
        rfl
      refine ⟨by rw [expected, stream], whole.congr fun pool _ => ?_, ?_, ?_⟩
      · simp only [Statement.code, site, loopsEq, List.head?_cons, Option.map_some]
      · exact whole.room_nil shape
      · rw [SameInput.of_stream stream]
        exact shorter

theorem Ready.continueStatement (done : s.continueStatement.diagnostics = #[]) :
    Reader.expect .semicolon s.stream = some s.continueStatement.stream ∧
      Declares s s.continueStatement []
        (fun pool => Statement.continue.code pool s.unit s.scope s.site s.here) [] := by
  unfold Compiler.continueStatement at done ⊢
  cases loopsEq : s.draft.loops with
  | nil =>
      rw [loopsEq] at done
      have clean := (reports_consume _ _ _).clean done
      exact absurd clean (fault_diagnostics_ne ready.audible _)
  | cons loop rest =>
      rw [loopsEq] at done
      simp only [] at done ⊢
      have clean := (reports_emitLoop _ _).clean done
      obtain ⟨expected, popped, shorter⟩ := ready.discardLoopLocals positive shape clean
      generalize (s.consume .semicolon .expectSemicolonAfterContinue).discardLoopLocals loop = t
        at *
      have behind := shape.behind loop (by rw [loopsEq]; exact List.mem_cons_self)
      have looped := popped.emitLoop (Nat.le_trans behind popped.here_le) done
      refine ⟨by rw [expected, stream_emitLoop], looped.congr fun pool _ => ?_, ?_, ?_⟩
      · have here := popped.writes.here_eq (.refl _)
        rw [slotsSize_fixedSlots] at here
        simp only [Statement.code, site, loopsEq, List.head?_cons, Option.map_some]
        rw [fixedSlots_append, here]
      · exact looped.room_nil shape
      · rw [SameInput.of_stream (stream_emitLoop t loop.start)]
        exact shorter

end Jumps

/-! Clauses of a `for` loop -/

section Clauses

variable {s : Compiler} {fuel : Nat} (ready : Ready s) (shape : Scoped s)
  (enough : 16 * s.tokens.length + 2 ≤ fuel)

include ready shape enough

theorem Ready.returnStatement (done : (returnStatement fuel s).diagnostics = #[]) :
    ∃ value, Reader.clause fuel .semicolon s.stream =
        some (value, (Compiler.returnStatement fuel s).stream) ∧
      Declares s (Compiler.returnStatement fuel s) []
        (fun pool => (Statement.return value).code pool s.unit s.scope s.site s.here) [] := by
  have nested : s.enclosing.isEmpty = false := by
    cases emptyEq : s.enclosing.isEmpty with
    | false => rfl
    | true =>
        rw [Compiler.returnStatement, emptyEq] at done
        simp only [if_true] at done
        refine absurd ?_ (fault_diagnostics_ne ready.audible .returnOutsideFunction)
        split at done
        · exact (reports_advance _).clean done
        · exact ((reports_expression _ _).trans (reports_consume _ _ _)).clean done
  simp only [Compiler.returnStatement, nested, Bool.false_eq_true, if_false] at done ⊢
  rw [Reader.clause, kindAt_stream, drop_stream]
  by_cases bare : s.check .semicolon = true
  · rw [if_pos bare] at done ⊢
    have more : s.current.kind ≠ .eof := by
      rw [eq_of_beq bare]
      decide
    obtain ⟨passed, stream, shorter⟩ := ready.advanced more done
    have whole := (passed.emitOp .false rfl).emitOp .return rfl
    refine ⟨none, ?_, whole, ?_, shorter⟩
    · refine (if_pos bare).trans ?_
      rw [← stream]
      rfl
    · exact whole.room_nil shape
  · rw [if_neg bare] at done ⊢
    obtain ⟨e, read, declares⟩ := ready.valueStatement shape enough rfl done
    refine ⟨some e, ?_, declares⟩
    refine (if_neg bare).trans ?_
    rw [read]
    rfl

theorem Ready.forInitializer (inScope : 0 < s.draft.depth)
    (done : (forInitializer fuel s).diagnostics = #[]) :
    ∃ first, Reader.initializer fuel s.stream =
        some (first, (Compiler.forInitializer fuel s).stream) ∧
      Declares s (Compiler.forInitializer fuel s) first.names
        (fun pool => fixedSlots (first.code pool s.scope)) [] := by
  unfold Compiler.forInitializer at done ⊢
  rw [Reader.initializer, kindAt_stream, drop_stream]
  by_cases missing : s.check .semicolon = true
  · rw [if_pos missing] at done ⊢
    have more : s.current.kind ≠ .eof := by
      rw [eq_of_beq missing]
      decide
    obtain ⟨passed, stream, shorter⟩ := ready.advanced more done
    refine ⟨.none, ?_, passed, ?_, shorter⟩
    · rw [← stream]
      exact if_pos missing
    · exact passed.room_nil shape
  · rw [if_neg missing] at done ⊢
    by_cases isVar : s.check .var = true
    · rw [if_pos isVar] at done ⊢
      have more : s.current.kind ≠ .eof := by
        rw [eq_of_beq isVar]
        decide
      have clean := (reports_varDeclaration _ _).clean done
      obtain ⟨passed, stream, shorter⟩ := ready.advanced more clean
      obtain ⟨name, value, read, declares⟩ := passed.ready.varDeclaration
        (shape.of_advance_nil passed) (by omega) passed.positive done
      refine ⟨.var name value, ?_, ?_, ?_, ?_⟩
      · refine (if_neg missing).trans ((if_pos isVar).trans ?_)
        rw [← stream, read]
        rfl
      · have whole := passed.trans declares.toAdvance
        have inner : (s.advance.draft.depth == 0) = false := by
          rw [passed.depth]
          exact beq_false_of_ne (by omega)
        have sameFresh : fresh s.advance [name] = fresh s [name] := by
          rw [fresh, fresh, passed.depth]
        rw [inner] at whole
        simp only [Bool.false_eq_true, if_false, List.append_nil, sameFresh] at whole
        refine whole.congr fun pool _ => ?_
        rw [passed.scope_nil, Initializer.code, defineCode]
        simp
      · exact declares.room
      · have fewer := declares.shorter
        omega
    · rw [if_neg isVar] at done ⊢
      obtain ⟨e, read, declares⟩ := ready.valueStatement shape enough rfl done
      refine ⟨.expression e, ?_, declares⟩
      refine (if_neg missing).trans ((if_neg isVar).trans ?_)
      rw [read]
      rfl

omit shape in
theorem Ready.forCondition (room : s.draft.locals.length ≤ maxLocals)
    (done : (forCondition fuel s).1.diagnostics = #[]) :
    ∃ condition, Reader.clause fuel .semicolon s.stream =
        some (condition, (Compiler.forCondition fuel s).1.stream) ∧
      Stage s (Compiler.forCondition fuel s).1
        (fun pool => fixedSlots (testCode pool s.scope Slot.unset condition)) ∧
      (Compiler.forCondition fuel s).1.tokens.length < s.tokens.length ∧
      (Compiler.forCondition fuel s).2 = condition.map fun e =>
        s.here + codeSize (e.code (Compiler.forCondition fuel s).1.pool s.scope) + 1 := by
  unfold Compiler.forCondition at done ⊢
  rw [Reader.clause, kindAt_stream, drop_stream]
  by_cases missing : s.check .semicolon = true
  · rw [if_pos missing] at done ⊢
    have more : s.current.kind ≠ .eof := by
      rw [eq_of_beq missing]
      decide
    obtain ⟨progress, kept, -, stream, shorter⟩ := ready.advance_progress more done
    have passed : Stage s s.advance fun _ => [] :=
      { toProgress := progress, toKept := kept, fewer := by omega }
    refine ⟨none, ?_, passed, by dsimp only; omega, rfl⟩
    rw [← stream]
    exact if_pos missing
  · rw [if_neg missing] at done ⊢
    simp only [] at done ⊢
    have clean := (((Reports.refl _).emitJump .jumpIfFalse).emitOp .pop).clean done
    obtain ⟨e, read, stage, shorter⟩ := ready.expressionThen room enough (by decide) clean
    generalize (expression fuel s).consume .semicolon .expectSemicolonAfterCondition = t at *
    have whole := (stage.emitJump .jumpIfFalse rfl).emitOp .pop rfl
    have here := stage.writes.here_eq (.refl _)
    rw [slotsSize_fixedSlots] at here
    refine ⟨some e, ?_, ?_, shorter, ?_⟩
    · refine (if_neg missing).trans ?_
      rw [read]
      rfl
    · refine whole.congr fun pool _ => ?_
      rw [testCode, fixedSlots_append, List.append_assoc]
      rfl
    · rw [here]
      rfl

omit shape in
theorem Ready.forIncrement (positive : 1 ≤ s.previous.line)
    (room : s.draft.locals.length ≤ maxLocals) {test : Nat} (before : test ≤ s.here)
    (done : (forIncrement fuel test s).1.diagnostics = #[]) :
    ∃ step, Reader.clause fuel .colon s.stream =
        some (step, (Compiler.forIncrement fuel test s).1.stream) ∧
      Stage s (Compiler.forIncrement fuel test s).1
        (fun pool => fixedSlots (stepCode pool s.scope s.here test step)) ∧
      (Compiler.forIncrement fuel test s).1.tokens.length < s.tokens.length ∧
      (Compiler.forIncrement fuel test s).2 = stepStart s.here test step := by
  unfold Compiler.forIncrement at done ⊢
  rw [Reader.clause, kindAt_stream, drop_stream]
  by_cases missing : s.check .colon = true
  · rw [if_pos missing] at done ⊢
    have more : s.current.kind ≠ .eof := by
      rw [eq_of_beq missing]
      decide
    obtain ⟨progress, kept, -, stream, shorter⟩ := ready.advance_progress more done
    have passed : Stage s s.advance fun _ => [] :=
      { toProgress := progress, toKept := kept, fewer := by omega }
    refine ⟨none, ?_, passed, by dsimp only; omega, rfl⟩
    rw [← stream]
    exact if_pos missing
  · rw [if_neg missing] at done ⊢
    simp only [] at done ⊢
    have cleanLoop := (reports_patchJump _ _).clean done
    have cleanColon := (reports_emitLoop _ _).clean cleanLoop
    have cleanPop := (reports_consume _ _ _).clean cleanColon
    have opened := (Stage.refl ready positive).emitJump .jump rfl
    obtain ⟨e, read, stage⟩ := (expressionReads fuel).expression opened.ready (opened.room room)
      enough cleanPop
    rw [opened.toKept.scope_eq] at stage
    obtain ⟨clause, expected, shorter⟩ :=
      ((opened.trans stage).emitOp .pop rfl).consume (by decide) cleanColon
    have fewer := stage.fewer
    generalize expression fuel (s.emitJump .jump) = t at *
    generalize (t.emitOp .pop).consume .colon .expectColonAfterClauses = u at *
    have behind : test ≤ u.here := by
      rw [clause.writes.here_eq (.refl _)]
      omega
    have looped := clause.emitLoop behind cleanLoop
    have whole : Stage s (u.emitLoop test) fun pool => .fixed ⟨.jump, Slot.unset⟩ ::
        fixedSlots (e.code pool s.scope ++ [⟨.pop, 0⟩, loopBack u.here test]) := by
      refine looped.congr fun pool _ => ?_
      rw [fixedSlots_append, List.append_assoc, List.append_assoc]
      rfl
    have patched := whole.patchFirst rfl done
    refine ⟨some e, ?_, patched.congr fun pool grown => ?_, ?_, here_emitJump s .jump⟩
    · refine (if_neg missing).trans ?_
      rw [stream_emitJump] at read
      rw [stream_emitOp] at expected
      rw [Reader.expressionThen, read]
      simp only [Option.bind_eq_bind, Option.bind_some, expected, stream_patchJump, stream_emitLoop]
    · -- The jump back was written with the constants known then, which is as good as any pool.
      rw [(Patched.of_patch looped.ready.audible done).pool] at grown
      have grownLoop := (clause.ready.emitLoop_progress clause.positive behind
        cleanLoop).1.writes.grown
      have hereLoop := clause.writes.here_eq (grownLoop.trans grown)
      have place : u.here = s.here + codeSize (e.code pool s.scope) + 4 := by
        rw [hereLoop, slotsSize_append, slotsSize_append, slotsSize_fixedSlots]
        simp only [slotsSize, Slot.size, Slot.draft, Directive.size, Operation.operand,
          Operand.width, List.nil_append]
        omega
      rw [slotsSize_fixedSlots, codeSize_append, place]
      rfl
    · rw [SameInput.of_stream (stream_patchJump _ _), SameInput.of_stream (stream_emitLoop _ _)]
      have passed : (s.emitJump .jump).tokens.length = s.tokens.length := rfl
      have popped : (t.emitOp .pop).tokens.length = t.tokens.length := rfl
      omega

end Clauses

end Reckoner.Compiler
