import Reckoner.Proofs.Compiler.Guarded
import Reckoner.Proofs.Compiler.Language
import Reckoner.Proofs.Compiler.Stock

/-!
Filing routines. Wherever a function is declared, its finished routine is put into the pool of the draft
around it, with constants of its own in the order in which they were met, and it stays there.
-/

namespace Reckoner.Compiler

open Script

/-! What lasts -/

theorem mem_addConstant {r : Routine} {c old : Constant} (member : old ∈ r.constants) :
    old ∈ (r.addConstant c).1.constants := by
  rw [Routine.addConstant]
  split
  · exact member
  · exact Array.mem_push_of_mem _ member

/-- As long as no routine has been begun or finished in between, the pool of the draft loses nothing. -/
structure Lasts (s t : Compiler) : Prop where
  created : s.created ≤ t.created
  enclosing : s.created = t.created → t.enclosing.length ≤ s.enclosing.length
  pool : s.created = t.created → t.enclosing.length = s.enclosing.length → ∀ c ∈ s.pool, c ∈ t.pool

namespace Lasts

variable {s t u : Compiler}

theorem of_eq (created : t.created = s.created) (enclosing : t.enclosing = s.enclosing)
    (pool : ∀ c ∈ s.pool, c ∈ t.pool) : Lasts s t where
  created := Nat.le_of_eq created.symm
  enclosing _ := Nat.le_of_eq (congrArg List.length enclosing)
  pool _ _ := pool

theorem refl (s : Compiler) : Lasts s s := .of_eq rfl rfl fun _ member => member

theorem trans (first : Lasts s t) (second : Lasts t u) : Lasts s u := by
  have created := first.created
  have createdToo := second.created
  refine ⟨Nat.le_trans created createdToo, fun same => ?_, fun same depth c member => ?_⟩
  · exact Nat.le_trans (second.enclosing (by omega)) (first.enclosing (by omega))
  · have one := first.enclosing (by omega)
    have two := second.enclosing (by omega)
    exact second.pool (by omega) (by omega) c (first.pool (by omega) (by omega) c member)

theorem report (s : Compiler) (t : Token) (c : Complaint) : Lasts s (s.report t c) := by
  rw [Compiler.report]
  split
  · exact .refl s
  · exact .of_eq rfl rfl fun _ member => member

theorem fetch (ts : List Token) (s : Compiler) : Lasts s (Compiler.fetch ts s) := by
  induction ts generalizing s with
  | nil => exact .of_eq rfl rfl fun _ member => member
  | cons t rest ih =>
      rw [Compiler.fetch]
      split
      · exact (report s t _).trans (ih _)
      · exact .of_eq rfl rfl fun _ member => member

theorem pooled (s : Compiler) (c : Constant) : Lasts s (s.pooled c) :=
  .of_eq rfl rfl fun _ member => mem_addConstant member

end Lasts

theorem lastsStable : Stable Lasts where
  refl := .refl
  trans := .trans
  advance s := .trans (t := { s with previous := s.current }) (.of_eq rfl rfl fun _ member => member)
    (.fetch s.tokens _)
  fault s c _ := .report s _ c
  faultAhead s c _ := .report s _ c
  redraft s d same := .of_eq rfl rfl fun c member => by
    have there : c ∈ s.draft.routine.constants := member
    rw [← same] at there
    exact there
  name s _ := .pooled s _
  number s _ _ _ := .pooled s _
  unread s _ _ _ := .report s _ _
  opened s _ := {
    created := Nat.le_succ _
    enclosing := fun same => absurd same (Nat.ne_of_lt (Nat.lt_succ_self _))
    pool := fun same => absurd same (Nat.ne_of_lt (Nat.lt_succ_self _)) }
  closed s outer rest enclosing := {
    created := Nat.le_refl _
    enclosing := fun _ => by
      rw [enclosing]
      exact Nat.le_succ _
    pool := fun _ depth => by
      rw [enclosing] at depth
      exact absurd depth (Nat.ne_of_lt (Nat.lt_succ_self _)) }
  listen _ := .of_eq rfl rfl fun _ member => member

theorem lastsQuiet : Quiet Lasts := lastsStable.toQuiet

theorem Quiet.closeTest {related : Compiler → Compiler → Prop} (quiet : Quiet related) (s : Compiler)
    (exit : Option Nat) : related s (closeTest exit s) := by
  cases exit with
  | none => exact quiet.refl s
  | some position => exact quiet.trans (quiet.patchJump s position) (quiet.emitOp _ .pop)

/-! What is filed -/

/-- Between two states of one draft its pool has lost nothing, and the functions have got their stocked
routines. -/
structure Files (unit : Nat) (s t : Compiler) (fs : List Function) : Prop where
  kept : ∀ c ∈ s.pool, c ∈ t.pool
  filed : Filed unit t.pool fs

namespace Files

variable {unit : Nat} {s t u : Compiler} {fs gs : List Function}

theorem trans (first : Files unit s t fs) (second : Files unit t u gs) :
    Files unit s u (fs ++ gs) where
  kept c member := second.kept c (first.kept c member)
  filed g member := by
    rcases List.mem_append.mp member with early | late
    · obtain ⟨q, stored, known⟩ := first.filed g early
      exact ⟨q, second.kept _ stored, known⟩
    · exact second.filed g late

theorem still {v w : View} (poised : Poised s v) (behind : Poised t w) (lasts : Lasts s t)
    (created : w.created = v.created) (enclosing : w.enclosing = v.enclosing) :
    Files unit s t [] where
  kept := lasts.pool (by rw [poised.created, behind.created, created])
    (by rw [poised.enclosing, behind.enclosing, enclosing])
  filed _ member := absurd member List.not_mem_nil

theorem append_nil (files : Files unit s t (fs ++ [])) : Files unit s t fs := by
  rwa [List.append_nil] at files

end Files

theorem Poised.pool_closeRoutine {s t : Compiler} {v w : View} (outer : Poised s v) (poised : Poised t w)
    (enclosing : w.enclosing = s.draft :: v.enclosing)
    (identity : w.identity = ⟨v.identity.unit, v.created⟩) :
    t.closeRoutine.pool = s.pool.push (.routine t.draft.routine) := by
  have number : t.draft.routine.identity.index = v.created := by
    rw [poised.identity, identity]
  have missing : s.draft.routine.constants.findIdx? (fun old => old.same (.routine t.draft.routine)) =
      none := by
    rw [Array.findIdx?_eq_none_iff]
    intro old member
    cases old with
    | routine r =>
        have older := outer.index_lt member
        refine beq_false_of_ne fun same => ?_
        rw [same, number] at older
        exact Nat.lt_irrefl _ older
    | _ => rfl
  rw [Compiler.closeRoutine, poised.enclosing, enclosing]
  simp only [Compiler.emitConstant, Compiler.constant, Routine.addConstant, missing]
  split
  · rw [Compiler.fault, Compiler.report]
    split <;> rfl
  · rfl

theorem Poised.files_closeRoutine {s t : Compiler} {v w : View} {f : Function} (outer : Poised s v)
    (poised : Poised t w) (enclosing : w.enclosing = s.draft :: v.enclosing)
    (identity : w.identity = ⟨v.identity.unit, v.created⟩) (index : f.index = v.created)
    (entries : w.entries = f.entries false)
    (filed : Filed v.identity.unit t.pool (functionsOf f.body)) :
    Files v.identity.unit s t.closeRoutine [f] := by
  have pool := outer.pool_closeRoutine poised enclosing identity
  have holds : Pool.Holds t.draft.routine.constants (f.entries false) := by
    rw [← entries]
    exact poised.holds
  constructor
  · intro c member
    rw [pool]
    exact Array.mem_push_of_mem _ member
  · intro g member
    obtain rfl := List.mem_singleton.mp member
    refine ⟨t.draft.routine, ?_, ?_, .of_filed holds filed⟩
    · rw [pool]
      exact Array.mem_push_self
    · rw [poised.identity, identity, index]

theorem View.Settled.overStatement {v : View} (settled : v.Settled) (rest : List Token) (count : Nat)
    (tree : Statement) : (v.overStatement rest count tree).Settled := settled.pass ..

/-! Statements -/

structure StatementFiles (fuel : Nat) : Prop where
  declaration : ∀ {s : Compiler} {v : View} {d : Declaration} {n : Nat} {rest : List Token},
    Poised s v → v.Settled → Reader.declaration fuel v.created v.tokens = some (d, n, rest) →
    (declaration fuel s).diagnostics = #[] →
    Files v.identity.unit s (declaration fuel s) d.functions
  functionDeclaration : ∀ {s : Compiler} {v : View} {f : Function} {n : Nat} {rest : List Token},
    Poised s v → v.Settled → Reader.functionRest fuel v.created v.tokens = some (f, n, rest) →
    (functionDeclaration fuel s).diagnostics = #[] →
    Files v.identity.unit s (functionDeclaration fuel s) [f]
  function : ∀ {s : Compiler} {v : View} {name : String} {f : Function} {n : Nat} {rest : List Token},
    Poised s v → Reader.functionTail fuel name v.created v.tokens = some (f, n, rest) →
    (function fuel name s).diagnostics = #[] → Files v.identity.unit s (function fuel name s) [f]
  block : ∀ {s : Compiler} {v : View} {body : List Declaration} {n : Nat} {rest : List Token},
    Poised s v → v.Settled → v.Deep → Reader.block fuel v.created v.tokens = some (body, n, rest) →
    (block fuel s).diagnostics = #[] → Files v.identity.unit s (block fuel s) (functionsOf body)
  statement : ∀ {s : Compiler} {v : View} {tree : Statement} {n : Nat} {rest : List Token},
    Poised s v → v.Settled → Reader.statement fuel v.created v.tokens = some (tree, n, rest) →
    (statement fuel s).diagnostics = #[] → Files v.identity.unit s (statement fuel s) tree.functions
  ifStatement : ∀ {s : Compiler} {v : View} {tree : Statement} {n : Nat} {rest : List Token},
    Poised s v → v.Settled → Reader.ifRest fuel v.created v.tokens = some (tree, n, rest) →
    (ifStatement fuel s).diagnostics = #[] →
    Files v.identity.unit s (ifStatement fuel s) tree.functions
  whileStatement : ∀ {s : Compiler} {v : View} {tree : Statement} {n : Nat} {rest : List Token},
    Poised s v → v.Settled → Reader.whileRest fuel v.created v.tokens = some (tree, n, rest) →
    (whileStatement fuel s).diagnostics = #[] →
    Files v.identity.unit s (whileStatement fuel s) tree.functions
  forStatement : ∀ {s : Compiler} {v : View} {tree : Statement} {n : Nat} {rest : List Token},
    Poised s v → v.Settled → Reader.forRest fuel v.created v.tokens = some (tree, n, rest) →
    (forStatement fuel s).diagnostics = #[] →
    Files v.identity.unit s (forStatement fuel s) tree.functions

namespace StatementFiles

variable {fuel : Nat} (ih : StatementFiles fuel) {s : Compiler} {v : View} {n : Nat}
  {rest : List Token}

include ih

theorem block_succ {body : List Declaration} (poised : Poised s v) (settled : v.Settled)
    (deep : v.Deep) (read : Reader.block (fuel + 1) v.created v.tokens = some (body, n, rest))
    (done : (Compiler.block (fuel + 1) s).diagnostics = #[]) :
    Files v.identity.unit s (Compiler.block (fuel + 1) s) (functionsOf body) := by
  have whole := ((statementVerdicts (fuel + 1)).block poised settled deep read).poised done
  have lasting := (Stable.statementKeeps lastsStable (fuel + 1)).block s
  rw [Reader.block] at read
  split at read
  · cases read
    exact .still poised whole lasting rfl rfl
  · rename_i notClosed
    split at read
    · cases read
    · rename_i notEnded
      simp only [Option.bind_eq_bind, Option.bind_eq_some_iff, Prod.exists] at read
      obtain ⟨d, m, us, first, body', n', rest', others, last⟩ := read
      cases last
      have neither : ¬ (s.check .rightBrace || s.check .eof) = true := by
        rw [poised.check_eq, poised.check_eq, Bool.or_eq_true]
        exact not_or.mpr ⟨notClosed, notEnded⟩
      rw [Compiler.block, if_neg neither] at done ⊢
      have clean := ((statementReports fuel).block _).clean done
      have judged := (statementVerdicts fuel).declaration poised settled first
      have deeper : (v.overDeclaration us m d).Deep := View.Deep.pass _ _ _ _ deep _
      have later := ih.block (judged.poised clean) (settled_declaration settled us m d) deeper others done
      exact (ih.declaration poised settled first clean).trans later

theorem declaration_succ {d : Declaration} (poised : Poised s v) (settled : v.Settled)
    (read : Reader.declaration (fuel + 1) v.created v.tokens = some (d, n, rest))
    (done : (Compiler.declaration (fuel + 1) s).diagnostics = #[]) :
    Files v.identity.unit s (Compiler.declaration (fuel + 1) s) d.functions := by
  have whole := ((statementVerdicts (fuel + 1)).declaration poised settled read).poised done
  have lasting := (Stable.statementKeeps lastsStable (fuel + 1)).declaration s
  rw [Reader.declaration] at read
  split at read
  · rename_i here
    obtain ⟨t, ts, ahead, kind⟩ := tokens_of_kind here (by decide)
    simp only [Option.bind_eq_bind, Option.bind_eq_some_iff, Prod.exists] at read
    obtain ⟨f, n', rest', declared, last⟩ := read
    cases last
    rw [ahead] at declared
    have isFn : s.check .fn = true := by rw [poised.check_eq]; exact here
    rw [Compiler.declaration, if_pos isFn] at done ⊢
    have clean := (reports_recover _).clean done
    have passed := (poised.advance ahead (by rw [kind]; decide)).1
    have between := settled.onward (w := { v with tokens := ts }) rfl rfl rfl (Nat.le_refl _)
    have behind := ((statementVerdicts fuel).functionDeclaration passed between declared).poised clean
    have later := ih.functionDeclaration passed between declared clean
    rw [recover_eq behind.audible]
    have first : Files v.identity.unit s s.advance [] :=
      .still poised passed (lastsQuiet.advance s) rfl rfl
    exact first.trans later
  · rename_i notFunction
    split at read
    · simp only [Option.bind_eq_bind, Option.bind_eq_some_iff, Prod.exists] at read
      obtain ⟨name, value, rest', declared, last⟩ := read
      cases last
      exact .still poised whole lasting rfl rfl
    · rename_i notVariable
      simp only [Option.bind_eq_bind, Option.bind_eq_some_iff, Prod.exists] at read
      obtain ⟨tree, n', rest', inner, last⟩ := read
      cases last
      have noFn : ¬ s.check .fn = true := by rw [poised.check_eq]; exact notFunction
      have noVar : ¬ s.check .var = true := by rw [poised.check_eq]; exact notVariable
      rw [Compiler.declaration, if_neg noFn, if_neg noVar] at done ⊢
      have clean := (reports_recover _).clean done
      have behind := ((statementVerdicts fuel).statement poised settled inner).poised clean
      rw [recover_eq behind.audible]
      exact ih.statement poised settled inner clean

theorem functionDeclaration_succ {f : Function} (poised : Poised s v) (settled : v.Settled)
    (read : Reader.functionRest (fuel + 1) v.created v.tokens = some (f, n, rest))
    (done : (Compiler.functionDeclaration (fuel + 1) s).diagnostics = #[]) :
    Files v.identity.unit s (Compiler.functionDeclaration (fuel + 1) s) [f] := by
  have whole := ((statementVerdicts (fuel + 1)).functionDeclaration poised settled read).poised done
  simp only [Reader.functionRest, Option.bind_eq_bind, Option.bind_eq_some_iff,
    Prod.exists] at read
  obtain ⟨name, us, named, tail⟩ := read
  obtain ⟨parsed, lexeme⟩ := poised.parseVariable settled .expectFunctionName named
  rw [Compiler.functionDeclaration] at done whole ⊢
  have opening := Quiet.parseVariable lastsQuiet s (c := .expectFunctionName) (by decide)
  generalize s.parseVariable .expectFunctionName = found at parsed lexeme done whole opening ⊢
  obtain ⟨w, byte⟩ := found
  simp only [] at parsed lexeme done whole opening ⊢
  have previous : w.markInitialized.previous = w.previous := by
    rw [Compiler.markInitialized]
    split
    · rfl
    · split <;> rfl
  rw [previous, lexeme] at done whole ⊢
  have marked := parsed.step (reports_markInitialized w) fun behind => behind.markInitialized rfl
  have cleanBody := (reports_defineVariable _ byte).clean done
  have cleanMark := ((statementReports fuel).function name _).clean cleanBody
  have ready := marked.poised cleanMark
  have body := ((statementVerdicts fuel).function ready tail).poised cleanBody
  have first : Files v.identity.unit s w.markInitialized [] :=
    .still poised ready (opening.trans (Quiet.markInitialized lastsQuiet w)) rfl rfl
  have second := ih.function ready tail cleanBody
  have third : Files v.identity.unit _ _ [] :=
    .still body whole (Quiet.defineVariable lastsQuiet _ byte) rfl rfl
  exact ((first.trans second).trans third).append_nil

theorem function_succ {name : String} {f : Function} (poised : Poised s v)
    (read : Reader.functionTail (fuel + 1) name v.created v.tokens = some (f, n, rest))
    (done : (Compiler.function (fuel + 1) name s).diagnostics = #[]) :
    Files v.identity.unit s (Compiler.function (fuel + 1) name s) [f] := by
  have opened := poised.opened name
  rw [Compiler.function] at done ⊢
  have cleanBody := (reports_closeRoutine _).clean done
  have head : ∀ {xs us}, Reader.parameterList fuel v.tokens = some (xs, us) → Poised _ _ :=
    fun listed => (Poised.parameterList opened listed).poised
      ((reports_functionBody fuel _).clean cleanBody)
  cases functionRead read with
  | @short xs t us rest e listed equal value =>
      have behind := head listed
      generalize parameterList fuel (s.openRoutine name).beginScope = t' at behind cleanBody ⊢
      have here : t'.check .equal = true := by
        rw [behind.check_eq]
        exact beq_iff_eq.mpr equal
      rw [if_pos here] at cleanBody ⊢
      have passed : Poised t'.advance
          (.listed us v.created (s.draft :: v.enclosing) v.identity.unit xs) :=
        (behind.advance rfl (by rw [equal]; decide)).1
      have body := (passed.valueStatement .expectSemicolonAfterFunction .return rfl value).poised
        cleanBody
      refine poised.files_closeRoutine body rfl rfl rfl ?_ fun g member => absurd member List.not_mem_nil
      rw [View.pass, View.scope_listed]
      rfl
  | @long xs us ws rest body n listed other opening inner =>
      have behind := head listed
      generalize parameterList fuel (s.openRoutine name).beginScope = t' at behind cleanBody ⊢
      have here : ¬ t'.check .equal = true := by
        rw [behind.check_eq]
        exact other
      rw [if_neg here] at cleanBody ⊢
      have passed : Poised (t'.consume .leftBrace .expectBraceBeforeBody)
          (.listed ws v.created (s.draft :: v.enclosing) v.identity.unit xs) :=
        (behind.consume .expectBraceBeforeBody (by decide) opening).1
      have clean : (Compiler.block fuel (t'.consume .leftBrace .expectBraceBeforeBody)).diagnostics =
        #[] := cleanBody
      have settled := View.settled_listed ws v.created (s.draft :: v.enclosing) v.identity.unit xs
      have deep := View.deep_listed ws v.created (s.draft :: v.enclosing) v.identity.unit xs
      have block := ((statementVerdicts fuel).block passed settled deep inner).poised clean
      have filed := (ih.block passed settled deep inner clean).filed
      refine poised.files_closeRoutine ((block.emitOp .false).emitOp .return) rfl rfl rfl ?_ filed
      rw [View.overBody, View.pass, View.scope_listed]
      show _ = gather [] (_ ++ [])
      rw [List.append_nil]
      rfl

theorem else_clause {tree : Statement} (poised : Poised s v) (settled : v.Settled)
    (read : ElseRead fuel v.created v.tokens tree n rest)
    (done : (if s.check .else then
      Compiler.statement fuel (s.advance.consume .colon .expectColonAfterElse) else s).diagnostics = #[]) :
    Files v.identity.unit s (if s.check .else then
      Compiler.statement fuel (s.advance.consume .colon .expectColonAfterElse) else s) tree.functions := by
  cases read with
  | missing other =>
      rw [if_neg (by rw [poised.check_eq]; exact other)]
      exact .still poised poised (.refl s) rfl rfl
  | @present t us ws _ _ _ ahead here closing read =>
      have isElse : s.check .else = true := by
        rw [poised.check_eq, ahead]
        exact beq_iff_eq.mpr here
      rw [if_pos isElse] at done ⊢
      have passed := (poised.advance ahead (by rw [here]; decide)).1
      have ready : Poised (s.advance.consume .colon .expectColonAfterElse) { v with tokens := ws } :=
        (Poised.consume passed .expectColonAfterElse (by decide) closing).1
      have lasting := lastsQuiet.trans (lastsQuiet.advance s)
        (Quiet.consume lastsQuiet s.advance .colon (c := .expectColonAfterElse) (by decide))
      have first : Files v.identity.unit s (s.advance.consume .colon .expectColonAfterElse) [] :=
        .still poised ready lasting rfl rfl
      have between := settled.onward (w := { v with tokens := ws }) rfl rfl rfl (Nat.le_refl _)
      have later := ih.statement ready between read done
      exact first.trans later

theorem ifStatement_succ {tree : Statement} (poised : Poised s v) (settled : v.Settled)
    (read : Reader.ifRest (fuel + 1) v.created v.tokens = some (tree, n, rest))
    (done : (Compiler.ifStatement (fuel + 1) s).diagnostics = #[]) :
    Files v.identity.unit s (Compiler.ifStatement (fuel + 1) s) tree.functions := by
  have whole := ((statementVerdicts (fuel + 1)).ifStatement poised settled read).poised done
  obtain @⟨c, a, b, us, ws, rest, m, n, test, first, second⟩ := ifRead read
  rw [Compiler.ifStatement] at done whole ⊢
  have judged := poised.expressionThen .expectColonAfterCondition (by decide) test
  have lastingTest := Quiet.expressionThen lastsQuiet fuel s .colon
    (c := .expectColonAfterCondition) (by decide)
  generalize (expression fuel s).consume .colon .expectColonAfterCondition = t
    at judged lastingTest done whole ⊢
  have cleanElse := (reports_patchJump _ _).clean done
  have cleanJoint := (reports_otherwise fuel _).clean cleanElse
  have cleanJump : ((Compiler.statement fuel ((t.emitJump .jumpIfFalse).emitOp .pop)).emitJump
      .jump |>.patchJump (t.here + 1)).diagnostics = #[] := cleanJoint
  have cleanBody := (((Reports.refl _).emitJump .jump).trans (reports_patchJump _ (t.here + 1))).clean
    cleanJump
  have cleanTest : t.diagnostics = #[] :=
    ((statementReports fuel).statement ((t.emitJump .jumpIfFalse).emitOp .pop)).clean cleanBody
  have opened : Poised ((t.emitJump .jumpIfFalse).emitOp .pop)
      (v.after us (c.entries v.scope) (codeSize (c.code #[] v.scope) + 4)) :=
    ((judged.poised cleanTest).emitJump .jumpIfFalse).emitOp .pop
  have between : (v.after us (c.entries v.scope) (codeSize (c.code #[] v.scope) + 4)).Settled :=
    settled.after ..
  have filedTest : Files v.identity.unit s ((t.emitJump .jumpIfFalse).emitOp .pop) [] :=
    .still poised opened (lastsQuiet.trans (lastsQuiet.trans lastingTest
      (Quiet.emitJump lastsQuiet _ _)) (Quiet.emitOp lastsQuiet _ _)) rfl rfl
  have filedBody := ih.statement opened between first cleanBody
  have body := ((statementVerdicts fuel).statement opened between first).poised cleanBody
  generalize Compiler.statement fuel ((t.emitJump .jumpIfFalse).emitOp .pop) = u
    at filedBody body cleanElse cleanJump whole done ⊢
  have joint := (((body.emitJump .jump).patchJump (t.here + 1)).poised cleanJump).emitOp .pop
  have filedJoint : Files v.identity.unit u (((u.emitJump .jump).patchJump (t.here + 1)).emitOp .pop) [] :=
    .still body joint (lastsQuiet.trans (lastsQuiet.trans (Quiet.emitJump lastsQuiet u .jump)
      (Quiet.patchJump lastsQuiet _ (t.here + 1))) (Quiet.emitOp lastsQuiet _ .pop)) rfl rfl
  generalize (((u.emitJump .jump).patchJump (t.here + 1)).emitOp .pop) = w
    at joint filedJoint cleanElse whole done ⊢
  have settledBody := between.overStatement ws m a
  have filedElse := ih.else_clause joint
    (settledBody.onward rfl rfl rfl (Nat.le_add_right _ (3 + 1))) second cleanElse
  have alternative := ((statementVerdicts fuel).else_clause joint
    (settledBody.onward rfl rfl rfl (Nat.le_add_right _ (3 + 1))) second).poised cleanElse
  have closing : Files v.identity.unit _ _ [] :=
    .still alternative whole (Quiet.patchJump lastsQuiet _ _) rfl rfl
  have all := (((filedTest.trans filedBody).trans filedJoint).trans filedElse).trans closing
  simpa [Statement.functions] using all

theorem loop_rest {t : Compiler} {w z : View} {tree : Statement} {exit : Option Nat} {again : Nat}
    (ready : Poised (t.pushLoop again) w) (between : w.Settled)
    (read : Reader.statement fuel w.created w.tokens = some (tree, n, rest))
    (whole : Poised
      (closeTest exit ((Compiler.statement fuel (t.pushLoop again)).emitLoop again)).popLoop z)
    (created : z.created = n) (enclosing : z.enclosing = w.enclosing) :
    Files w.identity.unit (t.pushLoop again)
      (closeTest exit ((Compiler.statement fuel (t.pushLoop again)).emitLoop again)).popLoop
        tree.functions := by
  have closed : Reports (Compiler.statement fuel (t.pushLoop again))
      (closeTest exit ((Compiler.statement fuel (t.pushLoop again)).emitLoop again)).popLoop :=
    (reports_emitLoop _ _).trans ((reports_closeTest exit _).trans (reports_popLoop _))
  have clean := closed.clean whole.clean
  have filed := ih.statement ready between read clean
  have body := ((statementVerdicts fuel).statement ready between read).poised clean
  have closing : Files w.identity.unit (Compiler.statement fuel (t.pushLoop again))
      (closeTest exit ((Compiler.statement fuel (t.pushLoop again)).emitLoop again)).popLoop [] :=
    .still body whole (lastsQuiet.trans (lastsQuiet.trans (Quiet.emitLoop lastsQuiet _ again)
      (Quiet.closeTest lastsQuiet _ exit)) (Quiet.popLoop lastsQuiet _)) created enclosing
  exact (filed.trans closing).append_nil

theorem whileStatement_succ {tree : Statement} (poised : Poised s v) (settled : v.Settled)
    (read : Reader.whileRest (fuel + 1) v.created v.tokens = some (tree, n, rest))
    (done : (Compiler.whileStatement (fuel + 1) s).diagnostics = #[]) :
    Files v.identity.unit s (Compiler.whileStatement (fuel + 1) s) tree.functions := by
  have whole := ((statementVerdicts (fuel + 1)).whileStatement poised settled read).poised done
  simp only [Reader.whileRest, Option.bind_eq_bind, Option.bind_eq_some_iff, Prod.exists] at read
  obtain ⟨c, us, test, inner, n', rest', body, last⟩ := read
  cases last
  rw [Compiler.whileStatement, poised.here] at done whole ⊢
  have judged := poised.expressionThen .expectColonAfterCondition (by decide) test
  have lastingTest := Quiet.expressionThen lastsQuiet fuel s .colon
    (c := .expectColonAfterCondition) (by decide)
  generalize (expression fuel s).consume .colon .expectColonAfterCondition = t
    at judged lastingTest done whole ⊢
  have grown : Reports t (closeTest (some (t.here + 1)) ((Compiler.statement fuel
      (((t.emitJump .jumpIfFalse).emitOp .pop).pushLoop v.here)).emitLoop v.here)).popLoop :=
    ((statementReports fuel).statement (((t.emitJump .jumpIfFalse).emitOp .pop).pushLoop v.here)).trans
      ((reports_emitLoop _ _).trans ((reports_closeTest _ _).trans (reports_popLoop _)))
  have between : (v.after us (c.entries v.scope) (codeSize (c.code #[] v.scope) + 4)).Settled :=
    settled.after ..
  have tested : Poised ((t.emitJump .jumpIfFalse).emitOp .pop)
      (v.after us (c.entries v.scope) (codeSize (c.code #[] v.scope) + 4)) :=
    ((judged.poised (grown.clean done)).emitJump .jumpIfFalse).emitOp .pop
  have entered := tested.pushLoop v.here
  have first : Files v.identity.unit s (((t.emitJump .jumpIfFalse).emitOp .pop).pushLoop v.here) [] :=
    .still poised entered (lastsQuiet.trans (lastsQuiet.trans (lastsQuiet.trans lastingTest
      (Quiet.emitJump lastsQuiet _ _)) (Quiet.emitOp lastsQuiet _ _)) (Quiet.pushLoop lastsQuiet _ _))
      rfl rfl
  have closed : Poised (closeTest (some (t.here + 1)) ((Compiler.statement fuel
      (((t.emitJump .jumpIfFalse).emitOp .pop).pushLoop v.here)).emitLoop v.here)).popLoop _ := whole
  have later := ih.loop_rest entered (between.pushLoop (Nat.le_add_right _ _)) body closed rfl rfl
  exact first.trans later

theorem for_rest {t : Compiler} {us ws : List Token} {test step : Option Expression}
    {tree : Statement} (poised : Poised t v) (settled : v.Settled)
    (readTest : Reader.clause fuel .semicolon v.tokens = some (test, us))
    (readStep : Reader.clause fuel .colon us = some (step, ws))
    (read : Reader.statement fuel v.created ws = some (tree, n, rest))
    (done : (closeTest (forCondition fuel t).2
        ((Compiler.statement fuel ((forIncrement fuel t.here (forCondition fuel t).1).1.pushLoop
          (forIncrement fuel t.here (forCondition fuel t).1).2)).emitLoop
            (forIncrement fuel t.here (forCondition fuel t).1).2)).popLoop.diagnostics = #[]) :
    Files v.identity.unit t (closeTest (forCondition fuel t).2
        ((Compiler.statement fuel ((forIncrement fuel t.here (forCondition fuel t).1).1.pushLoop
          (forIncrement fuel t.here (forCondition fuel t).1).2)).emitLoop
            (forIncrement fuel t.here (forCondition fuel t).1).2)).popLoop tree.functions := by
  have whole := ((statementVerdicts fuel).for_rest poised settled readTest readStep read).poised done
  obtain ⟨tested, -⟩ := poised.forCondition settled readTest
  have lastingTest := Quiet.forCondition lastsQuiet fuel t
  generalize forCondition fuel t = found at tested lastingTest done whole ⊢
  obtain ⟨u, exit⟩ := found
  rw [poised.here] at done whole ⊢
  have grown := reports_forIncrement (s := u) fuel v.here
  have lastingStep := Quiet.forIncrement lastsQuiet fuel u v.here
  have before : v.here ≤ v.here + codeSize (testCode #[] v.scope 0 test) := Nat.le_add_right _ _
  have settledTest : (v.after us (entriesOfOptional v.scope test)
      (codeSize (testCode #[] v.scope 0 test))).Settled := settled.after ..
  have stepped := fun tests => Poised.forIncrement (s := u) tests settledTest before readStep
  generalize forIncrement fuel v.here u = found at grown lastingStep stepped done whole ⊢
  obtain ⟨w, again⟩ := found
  have looped : Reports w (closeTest exit
      ((Compiler.statement fuel (w.pushLoop again)).emitLoop again)).popLoop :=
    ((statementReports fuel).statement (w.pushLoop again)).trans
      ((reports_emitLoop _ _).trans ((reports_closeTest _ _).trans (reports_popLoop _)))
  have cleanStep := looped.clean done
  obtain ⟨judged, start⟩ := stepped (tested.poised (grown.clean cleanStep))
  simp only [] at judged start lastingStep lastingTest done whole ⊢
  have settledStep := settledTest.after ws (entriesOfOptional v.scope step) (codeSize
    (stepCode #[] v.scope (v.here + codeSize (testCode #[] v.scope 0 test)) v.here step))
  have inside := Nat.le_trans (Nat.le_of_eq start) (stepStart_le #[] v.scope before step)
  have entered := (judged.poised cleanStep).pushLoop again
  have first : Files v.identity.unit t (w.pushLoop again) [] :=
    .still poised entered (lastsQuiet.trans (lastsQuiet.trans lastingTest lastingStep)
      (Quiet.pushLoop lastsQuiet w again)) rfl rfl
  have later := ih.loop_rest entered (settledStep.pushLoop inside) read whole rfl rfl
  exact first.trans later

theorem forStatement_succ {tree : Statement} (poised : Poised s v) (settled : v.Settled)
    (read : Reader.forRest (fuel + 1) v.created v.tokens = some (tree, n, rest))
    (done : (Compiler.forStatement (fuel + 1) s).diagnostics = #[]) :
    Files v.identity.unit s (Compiler.forStatement (fuel + 1) s) tree.functions := by
  have whole := ((statementVerdicts (fuel + 1)).forStatement poised settled read).poised done
  simp only [Reader.forRest, Option.bind_eq_bind, Option.bind_eq_some_iff, Prod.exists] at read
  obtain ⟨first, ts, readFirst, test, us, readTest, step, ws, readStep, inner, n', rest', body,
    last⟩ := read
  cases last
  rw [Compiler.forStatement] at done whole ⊢
  have opening := poised.beginScope.forInitializer settled.inner (Nat.succ_ne_zero _) readFirst
  have lastingOpening := lastsQuiet.trans (Quiet.beginScope lastsQuiet s)
    (Quiet.forInitializer lastsQuiet fuel s.beginScope)
  generalize forInitializer fuel s.beginScope = t at opening lastingOpening done whole ⊢
  have cleanLoop : (closeTest (forCondition fuel t).2
      ((Compiler.statement fuel ((forIncrement fuel t.here (forCondition fuel t).1).1.pushLoop
        (forIncrement fuel t.here (forCondition fuel t).1).2)).emitLoop
          (forIncrement fuel t.here (forCondition fuel t).1).2)).popLoop.diagnostics = #[] :=
    (reports_endScope _).clean done
  have grown : Reports t (closeTest (forCondition fuel t).2
      ((Compiler.statement fuel ((forIncrement fuel t.here (forCondition fuel t).1).1.pushLoop
        (forIncrement fuel t.here (forCondition fuel t).1).2)).emitLoop
          (forIncrement fuel t.here (forCondition fuel t).1).2)).popLoop :=
    (((reports_forCondition _ _).trans ((reports_forIncrement _ _ _).pushLoop _)).trans
      ((statementReports fuel).statement _)).trans
        ((reports_emitLoop _ _).trans ((reports_closeTest _ _).trans (reports_popLoop _)))
  have opened := opening.poised (grown.clean cleanLoop)
  have between := settled.inner.pass ts v.created (first.entries v.scope)
    (fixedSlots (first.code #[] v.scope)) first.names
  have filedFirst : Files v.identity.unit s t [] := .still poised opened lastingOpening rfl rfl
  have filedLoop := ih.for_rest opened between readTest readStep body cleanLoop
  have loop := ((statementVerdicts fuel).for_rest opened between readTest readStep body).poised cleanLoop
  have closing : Files v.identity.unit _ _ [] :=
    .still loop whole (Quiet.endScope lastsQuiet _) rfl rfl
  exact ((filedFirst.trans filedLoop).trans closing).append_nil

theorem block_statement {body : List Declaration} (poised : Poised s v) (settled : v.Settled)
    (read : Reader.block fuel v.created v.tokens = some (body, n, rest))
    (done : (Compiler.block fuel s.beginScope).endScope.diagnostics = #[]) :
    Files v.identity.unit s (Compiler.block fuel s.beginScope).endScope (functionsOf body) := by
  have whole := ((statementVerdicts fuel).block_statement poised settled read).poised done
  have clean := (reports_endScope _).clean done
  have opened := poised.beginScope
  have first : Files v.identity.unit s s.beginScope [] :=
    .still poised opened (Quiet.beginScope lastsQuiet s) rfl rfl
  have filed := ih.block opened settled.inner settled.deep_inner read clean
  have block := ((statementVerdicts fuel).block opened settled.inner settled.deep_inner read).poised clean
  have closing : Files v.identity.unit _ _ [] :=
    .still block whole (Quiet.endScope lastsQuiet _) rfl rfl
  exact ((first.trans filed).trans closing).append_nil

theorem statement_succ {tree : Statement} (poised : Poised s v) (settled : v.Settled)
    (read : Reader.statement (fuel + 1) v.created v.tokens = some (tree, n, rest))
    (done : (Compiler.statement (fuel + 1) s).diagnostics = #[]) :
    Files v.identity.unit s (Compiler.statement (fuel + 1) s) tree.functions := by
  have whole := ((statementVerdicts (fuel + 1)).statement poised settled read).poised done
  have lasting := (Stable.statementKeeps lastsStable (fuel + 1)).statement s
  have passed : ∀ {t : Token} {ts : List Token} {kind : Kind}, v.tokens = t :: ts → t.kind = kind →
      kind ≠ .eof → Poised s.advance { v with tokens := ts } ∧
        View.Settled { v with tokens := ts } ∧ Files v.identity.unit s s.advance [] := by
    intro t ts kind ahead here more
    have behind := (poised.advance ahead (by rw [here]; exact more)).1
    exact ⟨behind, settled.onward rfl rfl rfl (Nat.le_refl _),
      .still poised behind (lastsQuiet.advance s) rfl rfl⟩
  rw [Reader.statement] at read
  split at read
  · simp only [Option.bind_eq_bind, Option.bind_eq_some_iff, Prod.exists] at read
    obtain ⟨e, rest', value, last⟩ := read
    cases last
    exact .still poised whole lasting rfl rfl
  · rename_i kindEq
    obtain ⟨t, ts, ahead, kind⟩ := tokens_of_kind (beq_iff_eq.mpr kindEq) (by decide)
    obtain ⟨behind, between, first⟩ := passed ahead kind (by decide)
    rw [Compiler.statement, ← poised.kindAt, kindEq] at done ⊢
    rw [ahead] at read
    have later := ih.ifStatement behind between read done
    exact first.trans later
  · rename_i kindEq
    obtain ⟨t, ts, ahead, kind⟩ := tokens_of_kind (beq_iff_eq.mpr kindEq) (by decide)
    obtain ⟨behind, between, first⟩ := passed ahead kind (by decide)
    rw [Compiler.statement, ← poised.kindAt, kindEq] at done ⊢
    rw [ahead] at read
    have later := ih.whileStatement behind between read done
    exact first.trans later
  · rename_i kindEq
    obtain ⟨t, ts, ahead, kind⟩ := tokens_of_kind (beq_iff_eq.mpr kindEq) (by decide)
    obtain ⟨behind, between, first⟩ := passed ahead kind (by decide)
    rw [Compiler.statement, ← poised.kindAt, kindEq] at done ⊢
    rw [ahead] at read
    have later := ih.forStatement behind between read done
    exact first.trans later
  · simp only [Option.bind_eq_bind, Option.bind_eq_some_iff] at read
    obtain ⟨rest', closing, last⟩ := read
    cases last
    exact .still poised whole lasting rfl rfl
  · simp only [Option.bind_eq_bind, Option.bind_eq_some_iff] at read
    obtain ⟨rest', closing, last⟩ := read
    cases last
    exact .still poised whole lasting rfl rfl
  · simp only [Option.bind_eq_bind, Option.bind_eq_some_iff, Prod.exists] at read
    obtain ⟨value, rest', clause, last⟩ := read
    cases last
    exact .still poised whole lasting rfl rfl
  · rename_i kindEq
    obtain ⟨t, ts, ahead, kind⟩ := tokens_of_kind (beq_iff_eq.mpr kindEq) (by decide)
    obtain ⟨behind, between, first⟩ := passed ahead kind (by decide)
    rw [Compiler.statement, ← poised.kindAt, kindEq] at done ⊢
    rw [ahead] at read
    simp only [Option.bind_eq_bind, Option.bind_eq_some_iff, Prod.exists] at read
    obtain ⟨body, n', rest', inner, last⟩ := read
    cases last
    have later := ih.block_statement behind between inner done
    exact first.trans later
  · simp only [Option.bind_eq_bind, Option.bind_eq_some_iff, Prod.exists] at read
    obtain ⟨e, rest', value, last⟩ := read
    cases last
    exact .still poised whole lasting rfl rfl

end StatementFiles

theorem statementFiles (fuel : Nat) : StatementFiles fuel := by
  induction fuel with
  | zero =>
      exact {
        declaration := fun _ _ read => absurd read (by simp [Reader.declaration])
        functionDeclaration := fun _ _ read => absurd read (by simp [Reader.functionRest])
        function := fun _ read => absurd read (by simp [Reader.functionTail])
        block := fun _ _ _ read => absurd read (by simp [Reader.block])
        statement := fun _ _ read => absurd read (by simp [Reader.statement])
        ifStatement := fun _ _ read => absurd read (by simp [Reader.ifRest])
        whileStatement := fun _ _ read => absurd read (by simp [Reader.whileRest])
        forStatement := fun _ _ read => absurd read (by simp [Reader.forRest]) }
  | succ fuel ih =>
      exact {
        declaration := ih.declaration_succ
        functionDeclaration := ih.functionDeclaration_succ
        function := ih.function_succ
        block := ih.block_succ
        statement := ih.statement_succ
        ifStatement := ih.ifStatement_succ
        whileStatement := ih.whileStatement_succ
        forStatement := ih.forStatement_succ }

/-! Whole sources -/

theorem Poised.pool_advance {s : Compiler} {v : View} (poised : Poised s v)
    (ended : Reader.kindAt v.tokens = .eof) : s.advance.pool = s.pool := by
  have closed : Closed s.stream := by
    rw [poised.stream]
    exact poised.closed
  rw [Compiler.advance, closed.eq_nil (poised.kindAt.symm.trans ended)]
  rfl

theorem Poised.files_declarations {fuel : Nat} {s : Compiler} {v : View} {body : List Declaration}
    (poised : Poised s v) (settled : v.Settled) (deep : v.Deep)
    (read : Reader.declarations fuel v.created v.tokens = some body)
    (done : (Compiler.declarations fuel s).diagnostics = #[]) :
    Files v.identity.unit s (Compiler.declarations fuel s) (functionsOf body) ∧
      Pool.Holds (Compiler.declarations fuel s).pool
        (gather v.entries (entriesOfBody (v.depth == 0) v.scope body)) := by
  induction fuel generalizing s v body with
  | zero => exact absurd read (by simp [Reader.declarations])
  | succ fuel ih =>
      rw [Reader.declarations] at read
      rw [Compiler.declarations, poised.check_eq] at done ⊢
      split at read
      · rename_i ended
        cases read
        rw [if_pos ended]
        have same := poised.pool_advance (eq_of_beq ended)
        refine ⟨⟨fun c member => same ▸ member, fun g member => absurd member List.not_mem_nil⟩, ?_⟩
        rw [same]
        exact poised.holds
      · rename_i more
        rw [if_neg more] at done ⊢
        simp only [Option.bind_eq_bind, Option.bind_eq_some_iff, Prod.exists] at read
        obtain ⟨d, m, us, first, body', others, last⟩ := read
        cases last
        have clean := (reports_declarations fuel (Compiler.declaration fuel s)).clean done
        have judged := ((statementVerdicts fuel).declaration poised settled first).poised clean
        have deeper : (v.overDeclaration us m d).Deep := View.Deep.pass _ _ _ _ deep _
        have filed := (statementFiles fuel).declaration poised settled first clean
        obtain ⟨later, holds⟩ :=
          ih judged (settled_declaration settled us m d) deeper others done
        refine ⟨filed.trans later, ?_⟩
        rw [scope_declaration settled us m d] at holds
        rw [entriesOfBody, gather_append]
        exact holds

/-- An accepted source is compiled to the stocked routine of its tree. -/
theorem script_stocked {unit : Nat} {source : List UInt8} {r : Routine} {f : Function}
    (accepted : compileBytes unit source = .ok r) (read : scriptTree? source = some f) :
    Stocked unit true r f := by
  obtain ⟨body, readBody, rfl⟩ := Option.map_eq_some_iff.mp read
  obtain ⟨_, sentence, -⟩ := sentence_of_accepted accepted
  rw [compileBytes, script] at accepted
  obtain ⟨done, rfl⟩ := finish_ok accepted
  have clean := (((Reports.refl _).emitOp .false).emitOp .return).clean done
  obtain ⟨files, holds⟩ := (poised_script unit (scan_spec source).1 sentence.proper).files_declarations
    (View.settled_script unit (scan source)) (List.forall_mem_nil _) readBody clean
  refine .of_filed ?_ files.filed
  rw [scriptOf, Function.entries, entriesOfOptional, List.append_nil]
  exact holds

end Reckoner.Compiler
