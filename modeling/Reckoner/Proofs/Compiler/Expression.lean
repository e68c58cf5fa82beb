import Reckoner.Proofs.Compiler.Progress

/-!
Expressions. A compilation of an expression that ends without diagnostics has read a tree and has
written the code of that tree; the fuel never runs out, since every step but a few reads a token.
-/

namespace Reckoner.Compiler

open Script

/-- The names that can be read, from the innermost outwards. A local whose initializer is being
compiled is not among them. -/
def scopeOf (locals : List Local) : List String :=
  (locals.dropWhile fun l => l.depth.isNone).dropLast.map Local.name

def scope (s : Compiler) : List String := scopeOf s.draft.locals

theorem findSlot_cons (name : String) (l m : Local) (rest : List Local) :
    findSlot name (l :: m :: rest) =
      if l.name == name then some ((m :: rest).length, l.depth.isSome)
      else findSlot name (m :: rest) := rfl

theorem findSlot_slot (name : String) (locals : List Local) :
    (findSlot name locals).map Prod.fst = slotOf name (locals.dropLast.map Local.name) := by
  induction locals with
  | nil => rfl
  | cons l rest ih =>
      cases rest with
      | nil => rfl
      | cons m rest =>
          rw [findSlot_cons, List.dropLast_cons_cons, List.map_cons, slotOf]
          split
          · simp
          · exact ih

theorem findSlot_lt {name : String} {locals : List Local} {slot : Nat} {readable : Bool}
    (found : findSlot name locals = some (slot, readable)) : slot < locals.length := by
  induction locals with
  | nil => simp [findSlot] at found
  | cons l rest ih =>
      cases rest with
      | nil => simp [findSlot] at found
      | cons m rest =>
          rw [findSlot_cons] at found
          split at found
          · cases found
            simp
          · exact Nat.lt_succ_of_lt (ih found)

theorem slotOf_scopeOf {name : String} {locals : List Local}
    (readable : ∀ slot, findSlot name locals ≠ some (slot, false)) :
    slotOf name (scopeOf locals) = (findSlot name locals).map Prod.fst := by
  induction locals with
  | nil => rfl
  | cons l rest ih =>
      cases depthEq : l.depth with
      | some depth =>
          have whole : scopeOf (l :: rest) = (l :: rest).dropLast.map Local.name := by
            rw [scopeOf, List.dropWhile_cons_of_neg (by simp [depthEq])]
          rw [whole, findSlot_slot]
      | none =>
          have inner : scopeOf (l :: rest) = scopeOf rest := by
            rw [scopeOf, scopeOf, List.dropWhile_cons_of_pos (by simp [depthEq])]
          rw [inner]
          cases rest with
          | nil => rfl
          | cons m rest =>
              rw [findSlot_cons] at readable ⊢
              split at readable
              · simp [depthEq] at readable
              · rename_i other
                rw [if_neg other]
                exact ih readable

theorem findSlot_readable {name : String} {locals : List Local} {slot : Nat}
    (found : findSlot name locals = some (slot, true)) :
    slotOf name (scopeOf locals) = some slot := by
  rw [slotOf_scopeOf (by simp [found]), found]
  rfl

theorem findSlot_none {name : String} {locals : List Local} (missing : findSlot name locals = none) :
    slotOf name (scopeOf locals) = none := by
  rw [slotOf_scopeOf (by simp [missing]), missing]
  rfl

theorem Kept.scope_eq {s t : Compiler} (kept : Kept s t) : t.scope = s.scope := by
  rw [scope, scope, kept.locals]

structure Accessed (s : Compiler) (v : Access) (operand : Nat) (t : Compiler) : Prop where
  byte : v.operand = operand.toUInt8
  load : v.load.operand.width = 1
  store : v.store.operand.width = 1
  loads : ∀ pool, t.pool.Grows pool →
    loadOf pool s.scope s.previous.lexeme = ⟨v.load, operand⟩ ∧ Directive.Fits pool ⟨v.load, operand⟩
  stores : ∀ pool, t.pool.Grows pool →
    storeOf pool s.scope s.previous.lexeme = ⟨v.store, operand⟩ ∧
      Directive.Fits pool ⟨v.store, operand⟩

theorem Accessed.storing {s t u : Compiler} {v : Access} {operand : Nat} {code : Pool → List Slot}
    (found : Accessed s v operand t) (stage : Stage t u code) :
    Stage t (u.emitWith v.store operand.toUInt8)
      fun pool => code pool ++ [.fixed (storeOf pool s.scope s.previous.lexeme)] :=
  stage.emitWith _ found.store (fun pool => storeOf pool s.scope s.previous.lexeme)
    fun pool grown => found.stores pool (stage.writes.grown.trans grown)

theorem Accessed.loading {s t u : Compiler} {v : Access} {operand : Nat} {code : Pool → List Slot}
    (found : Accessed s v operand t) (stage : Stage t u code) :
    Stage t (u.emitWith v.load operand.toUInt8)
      fun pool => code pool ++ [.fixed (loadOf pool s.scope s.previous.lexeme)] :=
  stage.emitWith _ found.load (fun pool => loadOf pool s.scope s.previous.lexeme)
    fun pool grown => found.loads pool (stage.writes.grown.trans grown)

theorem Ready.access_progress {s : Compiler} (ready : Ready s) (positive : 1 ≤ s.previous.line)
    (room : s.draft.locals.length ≤ maxLocals) (done : s.access.1.diagnostics = #[]) :
    Progress s s.access.1 (fun _ => []) ∧ Kept s s.access.1 ∧ SameInput s s.access.1 ∧
      ∃ operand, Accessed s s.access.2 operand s.access.1 := by
  unfold access at done ⊢
  split at done
  · rename_i slot readable found
    cases readable with
    | false => exact absurd done (fault_diagnostics_ne ready.audible _)
    | true =>
        have visible := findSlot_readable found
        have bound : slot < 256 := Nat.lt_of_lt_of_le (findSlot_lt found) room
        refine ⟨.refl ready positive, .refl s, ⟨rfl, rfl, rfl⟩, slot, rfl, rfl, rfl, ?_, ?_⟩
        · intro pool _
          rw [loadOf, scope, visible]
          exact ⟨rfl, bound, fun constant => absurd constant (show Operand.slot ≠ .constant by decide)⟩
        · intro pool _
          rw [storeOf, scope, visible]
          exact ⟨rfl, bound, fun constant => absurd constant (show Operand.slot ≠ .constant by decide)⟩
  · rename_i missing
    have absent := findSlot_none missing
    obtain ⟨progress, kept, input, index, byte, bound, later⟩ :=
      ready.constant_progress positive (c := .text s.previous.lexeme) (by simp) (by simp) done
    refine ⟨progress, kept, input, index, byte, rfl, rfl, ?_, ?_⟩
    · intro pool grown
      obtain ⟨position, inPool⟩ := later pool grown
      rw [loadOf, scope, absent, position]
      exact ⟨rfl, bound, fun _ => inPool⟩
    · intro pool grown
      obtain ⟨position, inPool⟩ := later pool grown
      rw [storeOf, scope, absent, position]
      exact ⟨rfl, bound, fun _ => inPool⟩

theorem operator_of_precedence {kind : Kind} (binds : 1 ≤ Precedence.ofKind kind)
    (notCall : kind ≠ .leftParen) (notAnd : kind ≠ .and) (notOr : kind ≠ .or) :
    ∃ op, Operator.ofKind? kind = some op ∧ binaryOps kind = op.operations := by
  cases kind <;> first
    | exact ⟨_, rfl, rfl⟩
    | exact absurd binds (by decide)
    | exact absurd rfl notCall
    | exact absurd rfl notAnd
    | exact absurd rfl notOr

theorem ofRight_pos (kind : Kind) : 1 ≤ Precedence.ofRight kind := by
  cases kind <;> decide

theorem compound_some {kind : Kind} {o : Operation} (found : compound? kind = some o) :
    ∃ op, Operator.ofAssignment? kind = some op ∧ op.operations = [o] := by
  unfold compound? at found
  split at found
  all_goals first
    | exact ⟨_, rfl, by cases found; rfl⟩
    | exact absurd found (by simp)

theorem compound_none {kind : Kind} (missing : compound? kind = none) :
    Operator.ofAssignment? kind = none := by
  cases kind <;> first
    | rfl
    | exact absurd missing (by simp [compound?])

theorem operation_plain (op : Operator) : ∀ o ∈ op.operations, o.operand = .none := by
  cases op <;> decide

@[simp] theorem stream_emitOps (s : Compiler) (ops : List Operation) :
    (s.emitOps ops).stream = s.stream := by
  induction ops generalizing s with
  | nil => rfl
  | cons o rest ih => exact ih (s.emitOp o)

theorem Ready.emitOps_progress {s : Compiler} (ready : Ready s) (positive : 1 ≤ s.previous.line)
    {ops : List Operation} (plain : ∀ o ∈ ops, o.operand = .none) :
    Progress s (s.emitOps ops) (fun _ => fixedSlots (ops.map fun o => { op := o })) ∧
      Kept s (s.emitOps ops) ∧ SameInput s (s.emitOps ops) := by
  induction ops generalizing s with
  | nil => exact ⟨.refl ready positive, .refl s, ⟨rfl, rfl, rfl⟩⟩
  | cons o rest ih =>
      obtain ⟨first, kept, input⟩ := ready.emitOp_progress positive (plain o List.mem_cons_self)
      obtain ⟨others, keptOthers, inputOthers⟩ := ih first.ready first.positive
        fun o member => plain o (List.mem_cons_of_mem _ member)
      exact ⟨first.trans others, kept.trans keptOthers, inputOthers.stream.trans input.stream,
        inputOthers.tokens.trans input.tokens, inputOthers.previous.trans input.previous⟩

/-- Reading expressions with the given fuel: a result without diagnostics means that a tree was
read and that its code was written. -/
structure ExpressionReads (fuel : Nat) : Prop where
  expression : ∀ {s : Compiler}, Ready s → s.draft.locals.length ≤ maxLocals →
    16 * s.tokens.length + 2 ≤ fuel → (expression fuel s).diagnostics = #[] →
    ∃ e, Reader.expression fuel s.stream = some (e, (expression fuel s).stream) ∧
      Stage s (expression fuel s) fun pool => fixedSlots (e.code pool s.scope)
  climb : ∀ {s : Compiler} (level : Precedence), Ready s → s.draft.locals.length ≤ maxLocals →
    1 ≤ level → 16 * s.tokens.length + 1 ≤ fuel → (climb fuel level s).diagnostics = #[] →
    ∃ e, Reader.climb fuel level s.stream = some (e, (climb fuel level s).stream) ∧
      Stage s (climb fuel level s) fun pool => fixedSlots (e.code pool s.scope)
  operand : ∀ {s : Compiler} {assignable : Bool}, Ready s → 1 ≤ s.previous.line →
    s.draft.locals.length ≤ maxLocals → beginsExpression s.previous.kind = true →
    16 * s.tokens.length + 4 ≤ fuel → (operand fuel assignable s).diagnostics = #[] →
    ∃ e, Reader.operand fuel assignable (s.previous :: s.stream) =
        some (e, (operand fuel assignable s).stream) ∧
      Stage s (operand fuel assignable s) fun pool => fixedSlots (e.code pool s.scope)
  named : ∀ {s : Compiler} {assignable : Bool}, Ready s → 1 ≤ s.previous.line →
    s.draft.locals.length ≤ maxLocals → 16 * s.tokens.length + 3 ≤ fuel →
    (named fuel assignable s).diagnostics = #[] →
    ∃ e, Reader.named fuel assignable s.previous.lexeme s.stream =
        some (e, (named fuel assignable s).stream) ∧
      Stage s (named fuel assignable s) fun pool => fixedSlots (e.code pool s.scope)
  operators : ∀ {s : Compiler} {level : Precedence} (left : Expression), Ready s →
    1 ≤ s.previous.line → s.draft.locals.length ≤ maxLocals → 1 ≤ level →
    16 * s.tokens.length + 1 ≤ fuel → (operators fuel level s).diagnostics = #[] →
    ∃ (e : Expression) (more : Pool → List Directive), Reader.operators fuel level left s.stream =
        some (e, (operators fuel level s).stream) ∧
      (∀ pool, e.code pool s.scope = left.code pool s.scope ++ more pool) ∧
      Stage s (operators fuel level s) fun pool => fixedSlots (more pool)
  operator : ∀ {s : Compiler} (left : Expression), Ready s → 1 ≤ s.previous.line →
    s.draft.locals.length ≤ maxLocals → 1 ≤ Precedence.ofKind s.previous.kind →
    16 * s.tokens.length + 4 ≤ fuel → (operator fuel s).diagnostics = #[] →
    ∃ (e : Expression) (more : Pool → List Directive), Reader.operator fuel left (s.previous :: s.stream) =
        some (e, (operator fuel s).stream) ∧
      (∀ pool, e.code pool s.scope = left.code pool s.scope ++ more pool) ∧
      Stage s (operator fuel s) fun pool => fixedSlots (more pool)
  arguments : ∀ {s : Compiler} {count : Nat}, Ready s → s.draft.locals.length ≤ maxLocals →
    count ≤ maxArguments → 16 * s.tokens.length + 3 ≤ fuel →
    (arguments fuel count s).1.diagnostics = #[] →
    ∃ args, Reader.arguments fuel s.stream = some (args, (arguments fuel count s).1.stream) ∧
      (arguments fuel count s).2 = count + args.length ∧ count + args.length ≤ maxArguments ∧
      Stage s (arguments fuel count s).1 fun pool => fixedSlots (codeOfAll pool s.scope args)

theorem Ready.advance_audible {s : Compiler} (ready : Ready s)
    (done : s.advance.diagnostics = #[]) : s.advance.silent = false := by
  by_cases ended : s.current.kind = .eof
  · rw [ready.advance_end ended]
    exact ready.audible
  · exact (ready.advance_progress ended done).1.audible

theorem Ready.numberLiteral_stage {s : Compiler} (ready : Ready s) (positive : 1 ≤ s.previous.line)
    (done : s.numberLiteral.diagnostics = #[]) :
    ∃ d, Decimal.parse s.previous.lexeme = .ok d ∧
      Stage s s.numberLiteral (fun pool => [.fixed ⟨.constant, pool.find (.number d)⟩]) ∧
      s.numberLiteral.stream = s.stream := by
  unfold numberLiteral at done ⊢
  split at done
  · rename_i d parsed
    refine ⟨d, parsed, ?_⟩
    rw [emitConstant] at done ⊢
    have clean : (s.constant (.number d)).1.diagnostics = #[] := done
    obtain ⟨progress, kept, input, index, byte, bound, later⟩ :=
      ready.constant_progress positive (by simp) (by simp) clean
    have stored : Stage s (s.constant (.number d)).1 fun _ => [] :=
      .of_step ⟨progress, kept, input⟩
    dsimp only
    rw [byte]
    refine ⟨?_, input.stream⟩
    refine (stored.emitWith _ rfl (fun pool => ⟨.constant, pool.find (.number d)⟩) ?_).congr
      fun pool _ => List.nil_append _
    intro pool grown
    obtain ⟨position, inPool⟩ := later pool grown
    rw [position]
    exact ⟨rfl, bound, fun _ => inPool⟩
  · exact absurd done (fault_diagnostics_ne ready.audible _)

section Operators

variable {s : Compiler} {fuel : Nat}

theorem operator_call (isCall : s.previous.kind = .leftParen) {t : Compiler × Nat}
    (listed : (if s.check .rightParen then (s, 0) else Compiler.arguments fuel 0 s) = t) :
    Compiler.operator (fuel + 1) s =
      (t.1.consume .rightParen .expectParenAfterArguments).emitWith .call t.2.toUInt8 := by
  simp only [Compiler.operator, isCall, listed]

theorem operator_and (isAnd : s.previous.kind = .and) :
    Compiler.operator (fuel + 1) s = (Compiler.climb fuel Precedence.and
      ((s.emitJump .jumpIfFalse).emitOp .pop)).patchJump (s.here + 1) := by
  simp only [Compiler.operator, isAnd]

theorem operator_or (isOr : s.previous.kind = .or) :
    Compiler.operator (fuel + 1) s = (Compiler.climb fuel Precedence.or
      ((((s.emitJump .jumpIfFalse).emitJump .jump).patchJump (s.here + 1)).emitOp .pop)).patchJump
        ((s.emitJump .jumpIfFalse).here + 1) := by
  simp only [Compiler.operator, isOr]

variable (notCall : s.previous.kind ≠ .leftParen) (notAnd : s.previous.kind ≠ .and)
  (notOr : s.previous.kind ≠ .or)

include notCall notAnd notOr

theorem operator_other :
    Compiler.operator (fuel + 1) s = (Compiler.climb fuel (Precedence.ofRight s.previous.kind) s).emitOps
      (binaryOps s.previous.kind) := by
  rw [Compiler.operator]
  split
  · exact absurd (by assumption) notCall
  · exact absurd (by assumption) notAnd
  · exact absurd (by assumption) notOr
  · rfl

theorem reader_operator_other (left : Expression) (ts : List Token) :
    Reader.operator (fuel + 1) left (s.previous :: ts) =
      (Operator.ofKind? s.previous.kind).bind fun op =>
        (Reader.climb fuel (Precedence.ofRight s.previous.kind) ts).bind fun (right, ts) =>
          some (.binary op left right, ts) := by
  rw [Reader.operator]
  split
  · exact absurd (by assumption) notCall
  · exact absurd (by assumption) notAnd
  · exact absurd (by assumption) notOr
  · rfl

end Operators

namespace ExpressionReads

variable {fuel : Nat} (ih : ExpressionReads fuel) {s : Compiler} (ready : Ready s)
  (room : s.draft.locals.length ≤ maxLocals)

include ih ready room

theorem climb_succ {level : Precedence} (positiveLevel : 1 ≤ level)
    (enough : 16 * s.tokens.length + 1 ≤ fuel + 1)
    (done : (Compiler.climb (fuel + 1) level s).diagnostics = #[]) :
    ∃ e, Reader.climb (fuel + 1) level s.stream =
        some (e, (Compiler.climb (fuel + 1) level s).stream) ∧
      Stage s (Compiler.climb (fuel + 1) level s)
        fun pool => fixedSlots (e.code pool s.scope) := by
  rw [Compiler.climb] at done ⊢
  rw [Reader.climb]
  simp only [] at done ⊢
  generalize assignableEq : decide (level ≤ Precedence.assignment) = assignable at done ⊢
  have reports := expressionReports fuel
  cases begins : beginsExpression s.advance.previous.kind with
  | false =>
      rw [begins] at done
      have clean := (reports_fault _ _).clean done
      exact absurd done (fault_diagnostics_ne (ready.advance_audible clean) _)
  | true =>
      rw [begins] at done
      simp only [Bool.not_true, Bool.false_eq_true, if_false] at done ⊢
      generalize tEq : Compiler.operand fuel assignable s.advance = t at done ⊢
      generalize uEq : Compiler.operators fuel level t = u at done ⊢
      have cleanU : u.diagnostics = #[] := by
        split at done
        · exact ((reports_advance u).trans (reports_fault _ _)).clean done
        · exact done
      have cleanT : t.diagnostics = #[] := by
        rw [← uEq] at cleanU
        exact (reports.operators level t).clean cleanU
      have cleanAdvance : s.advance.diagnostics = #[] := by
        rw [← tEq] at cleanT
        exact (reports.operand _ _).clean cleanT
      have more : s.current.kind ≠ .eof := by
        intro ended
        rw [ready.advance_end ended] at begins
        simp [beginsExpression, ended] at begins
      obtain ⟨progress, kept, previous, stream, shorter⟩ :=
        ready.advance_progress more cleanAdvance
      have passed : Stage s s.advance fun _ => [] :=
        { toProgress := progress, toKept := kept, fewer := by omega }
      obtain ⟨left, readLeft, stageLeft⟩ := ih.operand progress.ready progress.positive
        (passed.room room) begins (by omega) (by rw [tEq]; exact cleanT)
      rw [tEq] at readLeft stageLeft
      have fewerT := stageLeft.fewer
      obtain ⟨e, rest, readRest, codeEq, stageRest⟩ := ih.operators left stageLeft.ready
        stageLeft.positive (stageLeft.room (passed.room room)) positiveLevel (by omega)
        (by rw [uEq]; exact cleanU)
      rw [uEq] at readRest stageRest
      have scopes : t.scope = s.scope := (kept.trans stageLeft.toKept).scope_eq
      rw [previous, stream] at readLeft
      rw [kept.scope_eq] at stageLeft
      rw [scopes] at codeEq
      have whole : Stage s u fun pool => fixedSlots (e.code pool s.scope) := by
        refine ((passed.trans stageLeft).trans stageRest).congr fun pool _ => ?_
        rw [codeEq, fixedSlots_append, List.nil_append]
      refine ⟨e, ?_⟩
      split at done
      · have clean := (reports_fault _ _).clean done
        exact absurd done (fault_diagnostics_ne (stageRest.ready.advance_audible clean) _)
      · rename_i free
        rw [if_neg free]
        refine ⟨?_, whole⟩
        have readFirst : Reader.operand fuel assignable s.stream = some (left, t.stream) := readLeft
        rw [readFirst]
        simp only [Option.bind_eq_bind, Option.bind_some, readRest, kindAt_stream]
        exact if_neg free

theorem operand_succ {assignable : Bool} (positive : 1 ≤ s.previous.line)
    (begins : beginsExpression s.previous.kind = true)
    (enough : 16 * s.tokens.length + 4 ≤ fuel + 1)
    (done : (Compiler.operand (fuel + 1) assignable s).diagnostics = #[]) :
    ∃ e, Reader.operand (fuel + 1) assignable (s.previous :: s.stream) =
        some (e, (Compiler.operand (fuel + 1) assignable s).stream) ∧
      Stage s (Compiler.operand (fuel + 1) assignable s)
        fun pool => fixedSlots (e.code pool s.scope) := by
  have here : Stage s s fun _ => [] := .refl ready positive
  rw [Compiler.operand] at done ⊢
  rw [Reader.operand]
  cases kindEq : s.previous.kind with
  | number =>
      simp only [kindEq] at done ⊢
      obtain ⟨d, parsed, stage, stream⟩ := ready.numberLiteral_stage positive done
      refine ⟨.number d, ?_, stage⟩
      rw [parsed, stream]
  | true => exact ⟨.bool true, rfl, here.emitOp _ rfl⟩
  | false => exact ⟨.bool false, rfl, here.emitOp _ rfl⟩
  | leftParen =>
      simp only [kindEq] at done ⊢
      have clean := (reports_consume _ _ _).clean done
      obtain ⟨e, read, stage⟩ := ih.expression ready room (by omega) clean
      obtain ⟨closed, expected, -⟩ := stage.consume (by decide) done
      refine ⟨e, ?_, closed⟩
      simp only [Option.bind_eq_bind, read, Option.bind_some, expected]
  | minus =>
      simp only [kindEq] at done ⊢
      obtain ⟨e, read, stage⟩ := ih.climb Precedence.unary ready room (by decide)
        (by omega) done
      refine ⟨.negate e, ?_, (stage.emitOp _ rfl).congr fun pool _ => ?_⟩
      · simp only [Option.bind_eq_bind, read, Option.bind_some, stream_emitOp]
      · rw [Expression.code, fixedSlots_append]
        rfl
  | bang =>
      simp only [kindEq] at done ⊢
      obtain ⟨e, read, stage⟩ := ih.climb Precedence.unary ready room (by decide)
        (by omega) done
      refine ⟨.not e, ?_, (stage.emitOp _ rfl).congr fun pool _ => ?_⟩
      · simp only [Option.bind_eq_bind, read, Option.bind_some, stream_emitOp]
      · rw [Expression.code, fixedSlots_append]
        rfl
  | identifier =>
      simp only [kindEq] at done ⊢
      exact ih.named ready positive room (by omega) done
  | _ => simp [kindEq, beginsExpression] at begins

section

/-! The variable just read is looked up; what follows it decides what is done with it. -/

variable {t : Compiler} {v : Access} {operand : Nat} (looked : Stage s t fun _ => [])
  (input : SameInput s t) (found : Accessed s v operand t)
  (enough : 16 * s.tokens.length + 3 ≤ fuel + 1)

include looked input found enough

omit ready

theorem named_assign (isEqual : t.current.kind = .equal)
    (done : (Compiler.expression fuel t.advance).diagnostics = #[]) :
    ∃ e, Reader.expression fuel s.tokens = some (e, (Compiler.expression fuel t.advance).stream) ∧
      Stage s ((Compiler.expression fuel t.advance).emitWith v.store operand.toUInt8)
        fun pool => fixedSlots ((Expression.assign s.previous.lexeme e).code pool s.scope) := by
  have more : t.current.kind ≠ .eof := by rw [isEqual]; decide
  have clean := ((expressionReports fuel).expression t.advance).clean done
  obtain ⟨-, -, -, stream, shorter⟩ := looked.ready.advance_progress more clean
  rw [input.tokens] at stream shorter
  have advanced := (Stage.refl looked.ready looked.positive).advance more clean
  obtain ⟨e, read, stage⟩ := ih.expression advanced.ready (advanced.room (looked.room room))
    (by omega) done
  rw [(looked.toKept.trans advanced.toKept).scope_eq] at stage
  refine ⟨e, by rw [← stream, read], ?_⟩
  refine (looked.trans (found.storing (advanced.trans stage))).congr fun pool _ => ?_
  rw [Expression.code, fixedSlots_append]
  rfl

theorem named_update {op : Operator} {o : Operation}
    (isUpdate : Operator.ofAssignment? t.current.kind = some op) (operations : op.operations = [o])
    (done : (Compiler.expression fuel (t.advance.emitWith v.load operand.toUInt8)).diagnostics = #[]) :
    ∃ e, Reader.expression fuel s.tokens = some (e,
        (Compiler.expression fuel (t.advance.emitWith v.load operand.toUInt8)).stream) ∧
      Stage s (((Compiler.expression fuel (t.advance.emitWith v.load operand.toUInt8)).emitOp
          o).emitWith v.store operand.toUInt8)
        fun pool => fixedSlots ((Expression.update s.previous.lexeme op e).code pool s.scope) := by
  have more : t.current.kind ≠ .eof := by
    intro ended
    rw [ended] at isUpdate
    exact absurd isUpdate (by simp [Operator.ofAssignment?])
  have clean := (((Reports.refl t.advance).emitWith v.load operand.toUInt8).trans
    ((expressionReports fuel).expression _)).clean done
  obtain ⟨-, -, -, stream, shorter⟩ := looked.ready.advance_progress more clean
  rw [input.tokens] at stream shorter
  have loaded := found.loading ((Stage.refl looked.ready looked.positive).advance more clean)
  have fewer : (t.advance.emitWith v.load operand.toUInt8).tokens = t.advance.tokens := rfl
  obtain ⟨e, read, stage⟩ := ih.expression loaded.ready (loaded.room (looked.room room))
    (by rw [fewer]; omega) done
  rw [(looked.toKept.trans loaded.toKept).scope_eq] at stage
  rw [stream_emitWith] at read
  refine ⟨e, by rw [← stream, read], ?_⟩
  have plain : o.operand = .none := operation_plain op o (by rw [operations]; simp)
  refine (looked.trans (found.storing ((loaded.trans stage).emitOp _ plain))).congr fun pool _ => ?_
  simp [Expression.code, Operator.code, operations, fixedSlots]

end

theorem named_succ {assignable : Bool} (positive : 1 ≤ s.previous.line)
    (enough : 16 * s.tokens.length + 3 ≤ fuel + 1)
    (done : (Compiler.named (fuel + 1) assignable s).diagnostics = #[]) :
    ∃ e, Reader.named (fuel + 1) assignable s.previous.lexeme s.stream =
        some (e, (Compiler.named (fuel + 1) assignable s).stream) ∧
      Stage s (Compiler.named (fuel + 1) assignable s)
        fun pool => fixedSlots (e.code pool s.scope) := by
  have reports := expressionReports fuel
  rw [Compiler.named] at done ⊢
  rw [Reader.named]
  simp only [] at done ⊢
  have clean : s.access.1.diagnostics = #[] := by
    split at done
    · exact ((reports_advance _).trans (reports.expression _)).clean done
    · split at done
      · exact ((reports_advance _).trans ((Reports.refl _).emitWith _ _ |>.trans
          (reports.expression _))).clean done
      · exact done
  obtain ⟨progress, kept, input, operand, found⟩ := ready.access_progress positive room clean
  have looked : Stage s s.access.1 fun _ => [] := .of_step ⟨progress, kept, input⟩
  revert done
  rw [found.byte]
  generalize s.access.2 = v at found ⊢
  generalize s.access.1 = t at clean input found looked ⊢
  have current : t.current = s.current := (List.cons.inj input.stream).1
  intro done
  rw [kindAt_stream, drop_stream, ← current]
  split at done
  · rename_i isPlain
    have same : (assignable && t.current.kind == .equal) = true := isPlain
    have isEqual : t.current.kind = .equal := by
      simp only [Bool.and_eq_true, beq_iff_eq] at same
      exact same.2
    rw [if_pos same, if_pos isPlain]
    obtain ⟨e, read, stage⟩ := ih.named_assign room looked input found enough isEqual done
    exact ⟨.assign s.previous.lexeme e, by rw [read]; rfl, stage⟩
  · rename_i notPlain
    have same : ¬ (assignable && t.current.kind == .equal) = true := notPlain
    rw [if_neg same, if_neg notPlain]
    split at done
    · rename_i o compound
      cases assignable with
      | false => exact absurd compound (by simp)
      | true =>
          simp only [if_true] at compound ⊢
          obtain ⟨op, isUpdate, operations⟩ := compound_some compound
          obtain ⟨e, read, stage⟩ := ih.named_update room looked input found enough isUpdate
            operations done
          rw [isUpdate]
          exact ⟨.update s.previous.lexeme op e, by simp only [read]; rfl, stage⟩
    · rename_i missing
      have noUpdate : (if assignable = true then Operator.ofAssignment? t.current.kind else none)
          = none := by
        cases assignable with
        | false => rfl
        | true => exact compound_none missing
      refine ⟨.read s.previous.lexeme, by rw [noUpdate, stream_emitWith, input.stream], ?_⟩
      have loaded := found.loading (Stage.refl looked.ready looked.positive)
      exact (looked.trans loaded).congr fun pool _ => rfl

theorem operators_succ {level : Precedence} (left : Expression) (positive : 1 ≤ s.previous.line)
    (positiveLevel : 1 ≤ level) (enough : 16 * s.tokens.length + 1 ≤ fuel + 1)
    (done : (Compiler.operators (fuel + 1) level s).diagnostics = #[]) :
    ∃ (e : Expression) (more : Pool → List Directive),
      Reader.operators (fuel + 1) level left s.stream =
        some (e, (Compiler.operators (fuel + 1) level s).stream) ∧
      (∀ pool, e.code pool s.scope = left.code pool s.scope ++ more pool) ∧
      Stage s (Compiler.operators (fuel + 1) level s) fun pool => fixedSlots (more pool) := by
  have reports := expressionReports fuel
  rw [Compiler.operators] at done ⊢
  rw [Reader.operators, kindAt_stream]
  split at done
  · rename_i binds
    rw [if_pos binds, if_pos binds]
    have more : s.current.kind ≠ .eof := by
      intro ended
      rw [ended] at binds
      exact absurd (Nat.le_trans positiveLevel binds) (by decide)
    have cleanOperator := (reports.operators level _).clean done
    have cleanAdvance := (reports.operator _).clean cleanOperator
    obtain ⟨-, kept, previous, stream, shorter⟩ := ready.advance_progress more cleanAdvance
    have passed := (Stage.refl ready positive).advance more cleanAdvance
    obtain ⟨e, codeE, readE, codeEqE, stageE⟩ := ih.operator left passed.ready passed.positive
      (passed.room room) (by rw [previous]; exact Nat.le_trans positiveLevel binds) (by omega)
      cleanOperator
    have fewer := stageE.fewer
    obtain ⟨f, codeF, readF, codeEqF, stageF⟩ := ih.operators e stageE.ready stageE.positive
      (stageE.room (passed.room room)) positiveLevel (by omega) done
    rw [kept.scope_eq] at codeEqE
    rw [stageE.toKept.scope_eq, kept.scope_eq] at codeEqF
    refine ⟨f, fun pool => codeE pool ++ codeF pool, ?_, ?_, ?_⟩
    · rw [previous, stream] at readE
      have readFirst : Reader.operator fuel left s.stream =
        some (e, (Compiler.operator fuel s.advance).stream) := readE
      rw [readFirst]
      exact readF
    · intro pool
      rw [codeEqF, codeEqE, List.append_assoc]
    · refine ((passed.trans stageE).trans stageF).congr fun pool _ => ?_
      rw [fixedSlots_append, List.nil_append]
  · rename_i loose
    rw [if_neg loose, if_neg loose]
    exact ⟨left, fun _ => [], rfl, fun pool => (List.append_nil _).symm, .refl ready positive⟩

theorem arguments_succ {count : Nat} (bound : count ≤ maxArguments)
    (enough : 16 * s.tokens.length + 3 ≤ fuel + 1)
    (done : (Compiler.arguments (fuel + 1) count s).1.diagnostics = #[]) :
    ∃ args, Reader.arguments (fuel + 1) s.stream =
        some (args, (Compiler.arguments (fuel + 1) count s).1.stream) ∧
      (Compiler.arguments (fuel + 1) count s).2 = count + args.length ∧
      count + args.length ≤ maxArguments ∧
      Stage s (Compiler.arguments (fuel + 1) count s).1
        fun pool => fixedSlots (codeOfAll pool s.scope args) := by
  have reports := expressionReports fuel
  rw [Compiler.arguments] at done ⊢
  rw [Reader.arguments]
  simp only [] at done ⊢
  have clean : (Compiler.expression fuel s).diagnostics = #[] := by
    have counted : ∀ t : Compiler,
        Reports t (if count = maxArguments then t.fault .tooManyArguments else t) := by
      intro t
      split
      · exact reports_fault t _
      · exact .refl t
    refine (counted _).clean ?_
    revert done
    generalize (if count = maxArguments then
      (Compiler.expression fuel s).fault .tooManyArguments else Compiler.expression fuel s) = t
    intro done
    split at done
    · exact ((reports_advance t).trans (reports.arguments _ _)).clean done
    · exact done
  obtain ⟨e, read, stage⟩ := ih.expression ready room (by omega) clean
  have few : count ≠ maxArguments := by
    intro full
    rw [if_pos full] at done
    refine fault_diagnostics_ne stage.ready.audible .tooManyArguments ?_
    split at done
    · exact ((reports_advance _).trans (reports.arguments _ _)).clean done
    · exact done
  rw [if_neg few] at done ⊢
  generalize Compiler.expression fuel s = t at done clean read stage ⊢
  simp only [read, Option.bind_eq_bind, Option.bind_some, kindAt_stream, drop_stream]
  have fewer := stage.fewer
  by_cases isComma : t.check .comma = true
  · rw [if_pos isComma] at done ⊢
    have matched : (t.current.kind == .comma) = true := isComma
    have more : t.current.kind ≠ .eof := by
      rw [eq_of_beq matched]
      decide
    have cleanAdvance := (reports.arguments _ _).clean done
    obtain ⟨-, kept, -, stream, shorter⟩ := stage.ready.advance_progress more cleanAdvance
    have passed := stage.advance more cleanAdvance
    obtain ⟨args, readArgs, counted, within, stageArgs⟩ := ih.arguments passed.ready
      (passed.room room) (by omega) (by omega) done
    refine ⟨e :: args, ?_, ?_, ?_, ?_⟩
    · refine (if_pos matched).trans ?_
      rw [← stream, readArgs]
      rfl
    · rw [counted, List.length_cons]
      omega
    · rw [List.length_cons]
      omega
    · rw [passed.toKept.scope_eq] at stageArgs
      refine (passed.trans stageArgs).congr fun pool _ => ?_
      rw [codeOfAll, fixedSlots_append]
  · rw [if_neg isComma] at done ⊢
    have unmatched : ¬ (t.current.kind == .comma) = true := isComma
    refine ⟨[e], if_neg unmatched, rfl, ?_, ?_⟩
    · rw [List.length_singleton]
      omega
    · refine stage.congr fun pool _ => ?_
      rw [codeOfAll, codeOfAll, List.append_nil]

theorem argument_list (positive : 1 ≤ s.previous.line)
    (enough : 16 * s.tokens.length + 3 ≤ fuel) {t : Compiler × Nat}
    (listed : (if s.check .rightParen then (s, 0) else Compiler.arguments fuel 0 s) = t)
    (done : t.1.diagnostics = #[]) :
    ∃ args, (if Reader.kindAt s.stream == .rightParen then some ([], s.stream)
          else Reader.arguments fuel s.stream) = some (args, t.1.stream) ∧
      t.2 = args.length ∧ args.length ≤ maxArguments ∧
      Stage s t.1 fun pool => fixedSlots (codeOfAll pool s.scope args) := by
  by_cases none : s.check .rightParen = true
  · rw [if_pos none] at listed
    subst listed
    refine ⟨[], if_pos none, rfl, Nat.zero_le _, (Stage.refl ready positive).congr fun pool _ => ?_⟩
    rw [codeOfAll]
    rfl
  · rw [if_neg none] at listed
    subst listed
    obtain ⟨args, read, counted, within, stage⟩ := ih.arguments ready room (Nat.zero_le _) enough done
    refine ⟨args, (if_neg none).trans read, by rw [counted, Nat.zero_add], ?_, stage⟩
    rwa [Nat.zero_add] at within

theorem connective_and (positive : 1 ≤ s.previous.line) (enough : 16 * s.tokens.length + 4 ≤ fuel + 1)
    {t : Compiler} (compiled : (Compiler.climb fuel Precedence.and
      ((s.emitJump .jumpIfFalse).emitOp .pop)).patchJump (s.here + 1) = t)
    (done : t.diagnostics = #[]) :
    ∃ e, Reader.climb fuel Precedence.and s.stream = some (e, t.stream) ∧
      Stage s t fun pool => fixedSlots (⟨.jumpIfFalse, codeSize (e.code pool s.scope) + 1⟩ ::
        { op := .pop } :: e.code pool s.scope) := by
  subst compiled
  have start : Stage s s fun _ => [] := .refl ready positive
  have clean := (reports_patchJump _ _).clean done
  have opened := (start.emitJump .jumpIfFalse rfl).emitOp .pop rfl
  obtain ⟨e, read, stage⟩ := ih.climb Precedence.and opened.ready (opened.room room) (by decide)
    (by have fewer := opened.fewer; omega) clean
  rw [opened.toKept.scope_eq] at stage
  have patched := (opened.trans stage).patchFirst rfl done
  refine ⟨e, ?_, patched.congr fun pool _ => ?_⟩
  · rw [stream_emitOp, stream_emitJump] at read
    rw [read, stream_patchJump]
  · have distance : slotsSize ([.fixed { op := .pop }] ++ fixedSlots (e.code pool s.scope)) =
        codeSize (e.code pool s.scope) + 1 := by
      rw [slotsSize_append, slotsSize_fixedSlots, Nat.add_comm]
      rfl
    exact congrArg (fun size => .fixed ⟨.jumpIfFalse, size⟩ :: .fixed { op := .pop } ::
      fixedSlots (e.code pool s.scope)) distance

theorem connective_or (positive : 1 ≤ s.previous.line) (enough : 16 * s.tokens.length + 4 ≤ fuel + 1)
    {t : Compiler} (compiled : (Compiler.climb fuel Precedence.or
      ((((s.emitJump .jumpIfFalse).emitJump .jump).patchJump (s.here + 1)).emitOp .pop)).patchJump
        ((s.emitJump .jumpIfFalse).here + 1) = t)
    (done : t.diagnostics = #[]) :
    ∃ e, Reader.climb fuel Precedence.or s.stream = some (e, t.stream) ∧
      Stage s t fun pool => fixedSlots (⟨.jumpIfFalse, 3⟩ ::
        ⟨.jump, codeSize (e.code pool s.scope) + 1⟩ :: { op := .pop } :: e.code pool s.scope) := by
  subst compiled
  have start : Stage s s fun _ => [] := .refl ready positive
  have clean := (reports_patchJump _ _).clean done
  have cleanPatch := ((Reports.refl _).emitOp .pop |>.trans
    ((expressionReports fuel).climb Precedence.or _)).clean clean
  have jumps := (start.emitJump .jumpIfFalse rfl).emitJump .jump rfl
  have opened := (jumps.patchFirst rfl cleanPatch).emitOp .pop rfl
  obtain ⟨e, read, stage⟩ := ih.climb Precedence.or opened.ready (opened.room room) (by decide)
    (by have fewer := opened.fewer; omega) clean
  rw [opened.toKept.scope_eq] at stage
  have whole : Stage s _ fun pool => [.fixed ⟨.jumpIfFalse, 3⟩] ++ .fixed ⟨.jump, Slot.unset⟩ ::
    (.fixed { op := .pop } :: fixedSlots (e.code pool s.scope)) := opened.trans stage
  have patched := whole.patch rfl (fun _ _ => rfl) (by
    rw [here_emitJump]
    rfl) done
  refine ⟨e, ?_, patched.congr fun pool _ => ?_⟩
  · rw [stream_emitOp, stream_patchJump, stream_emitJump, stream_emitJump] at read
    rw [read, stream_patchJump]
  · rw [slotsSize, slotsSize_fixedSlots, Nat.add_comm]
    rfl

theorem called (left : Expression) (isCall : s.previous.kind = .leftParen)
    (positive : 1 ≤ s.previous.line) (enough : 16 * s.tokens.length + 4 ≤ fuel + 1)
    (done : (Compiler.operator (fuel + 1) s).diagnostics = #[]) :
    ∃ args, Reader.operator (fuel + 1) left (s.previous :: s.stream) =
        some (.call left args, (Compiler.operator (fuel + 1) s).stream) ∧
      Stage s (Compiler.operator (fuel + 1) s) fun pool =>
        fixedSlots (codeOfAll pool s.scope args ++ [⟨.call, args.length⟩]) := by
  generalize listed : (if s.check .rightParen then (s, 0) else Compiler.arguments fuel 0 s) = t
  rw [operator_call isCall listed] at done ⊢
  have consumed : (t.1.consume .rightParen .expectParenAfterArguments).diagnostics = #[] := done
  obtain ⟨args, read, counted, within, stage⟩ := ih.argument_list ready room positive (by omega)
    listed ((reports_consume _ _ _).clean consumed)
  obtain ⟨closed, expected, -⟩ := stage.consume (by decide) consumed
  refine ⟨args, ?_, ?_⟩
  · simp only [Reader.operator, isCall]
    split at read
    · rename_i none
      rw [if_pos none, read]
      simp only [Option.bind_eq_bind, Option.bind_some, expected, stream_emitWith]
    · rename_i some
      rw [if_neg some, read]
      simp only [Option.bind_eq_bind, Option.bind_some, expected, stream_emitWith]
  · rw [counted]
    refine (closed.emitWith .call rfl (fun _ => ⟨.call, args.length⟩) ?_).congr fun pool _ => ?_
    · intro pool _
      refine ⟨rfl, Nat.lt_succ_of_le within, ?_⟩
      exact fun constant => absurd constant (show Operand.count ≠ .constant by decide)
    · rw [fixedSlots_append]
      rfl

theorem operator_succ (left : Expression) (positive : 1 ≤ s.previous.line)
    (binds : 1 ≤ Precedence.ofKind s.previous.kind)
    (enough : 16 * s.tokens.length + 4 ≤ fuel + 1)
    (done : (Compiler.operator (fuel + 1) s).diagnostics = #[]) :
    ∃ (e : Expression) (more : Pool → List Directive),
      Reader.operator (fuel + 1) left (s.previous :: s.stream) =
        some (e, (Compiler.operator (fuel + 1) s).stream) ∧
      (∀ pool, e.code pool s.scope = left.code pool s.scope ++ more pool) ∧
      Stage s (Compiler.operator (fuel + 1) s) fun pool => fixedSlots (more pool) := by
  by_cases isCall : s.previous.kind = .leftParen
  · obtain ⟨args, read, stage⟩ := ih.called ready room left isCall positive enough done
    exact ⟨.call left args, fun pool => codeOfAll pool s.scope args ++ [⟨.call, args.length⟩], read,
      fun pool => by rw [Expression.code, List.append_assoc], stage⟩
  by_cases isAnd : s.previous.kind = .and
  · rw [operator_and isAnd] at done ⊢
    obtain ⟨e, read, stage⟩ := ih.connective_and ready room positive enough rfl done
    refine ⟨.and left e, fun pool => ⟨.jumpIfFalse, codeSize (e.code pool s.scope) + 1⟩ ::
      { op := .pop } :: e.code pool s.scope, ?_, fun pool => by rw [Expression.code], stage⟩
    simp only [Reader.operator, isAnd, read, Option.bind_eq_bind, Option.bind_some]
  by_cases isOr : s.previous.kind = .or
  · rw [operator_or isOr] at done ⊢
    obtain ⟨e, read, stage⟩ := ih.connective_or ready room positive enough rfl done
    refine ⟨.or left e, fun pool => ⟨.jumpIfFalse, 3⟩ :: ⟨.jump, codeSize (e.code pool s.scope) + 1⟩ ::
      { op := .pop } :: e.code pool s.scope, ?_, fun pool => by rw [Expression.code], stage⟩
    simp only [Reader.operator, isOr, read, Option.bind_eq_bind, Option.bind_some]
  obtain ⟨op, isOperator, operations⟩ := operator_of_precedence binds isCall isAnd isOr
  rw [operator_other isCall isAnd isOr] at done ⊢
  have clean := (reports_emitOps _ _).clean done
  obtain ⟨e, read, stage⟩ := ih.climb (Precedence.ofRight s.previous.kind) ready room
    (ofRight_pos _) (by omega) clean
  have applied := stage.trans (.of_step (stage.ready.emitOps_progress stage.positive
    (operations ▸ operation_plain op)))
  refine ⟨.binary op left e, fun pool => e.code pool s.scope ++ op.code, ?_,
    fun pool => by rw [Expression.code, List.append_assoc], ?_⟩
  · rw [reader_operator_other isCall isAnd isOr, isOperator, Option.bind_some, read, stream_emitOps]
    rfl
  · refine applied.congr fun pool _ => ?_
    rw [operations, fixedSlots_append]
    rfl

end ExpressionReads

theorem expressionReads (fuel : Nat) : ExpressionReads fuel := by
  induction fuel with
  | zero => constructor <;> intros <;> omega
  | succ fuel ih =>
      exact {
        expression := fun ready room enough done =>
          ih.climb Precedence.assignment ready room (by decide) (by omega) done
        climb := fun _ ready room level enough done => ih.climb_succ ready room level enough done
        operand := fun ready positive room begins enough done =>
          ih.operand_succ ready room positive begins enough done
        named := fun ready positive room enough done =>
          ih.named_succ ready room positive enough done
        operators := fun left ready positive room level enough done =>
          ih.operators_succ ready room left positive level enough done
        operator := fun left ready positive room binds enough done =>
          ih.operator_succ ready room left positive binds enough done
        arguments := fun ready room bound enough done =>
          ih.arguments_succ ready room bound enough done }

end Reckoner.Compiler
