import Reckoner.Proofs.Compiler.Routines

/-!
Statements and declarations. A compilation that ends without diagnostics has read the tree of its
source, and the draft it leaves is the image of that tree.
-/

namespace Reckoner.Compiler

open Script

namespace Declares

variable {s t : Compiler} {names : List String} {code : Pool → List Slot} {fs : List Function}

theorem shape (declares : Declares s t names code fs) (shape : Scoped s) : Scoped t := by
  refine shape.of_advance declares.toAdvance ?_ declares.room
  intro l member
  obtain ⟨name, -, rfl⟩ := List.mem_map.mp member
  rfl

theorem scope_eq (declares : Declares s t names code fs) (shape : Scoped s) :
    t.scope = names ++ s.scope := by
  rw [declares.toAdvance.scope_eq shape (declares.shape shape), fresh, List.map_map]
  congr 1
  exact List.map_id names

theorem site_eq (declares : Declares s t names code fs) (shape : Scoped s)
    (deep : Deep s ∨ names = []) : t.site = s.site := by
  refine declares.toAdvance.site_eq shape.nonempty ?_
  intro loop inLoops l member
  obtain ⟨name, inNames, rfl⟩ := List.mem_map.mp member
  rcases deep with deep | none
  · simpa [Local.isDeeper] using deep loop inLoops
  · rw [none] at inNames
    exact absurd inNames List.not_mem_nil

theorem congr {more : Pool → List Slot} (declares : Declares s t names code fs)
    (same : ∀ pool, t.pool.Grows pool → code pool = more pool) : Declares s t names more fs :=
  { declares with toAdvance := declares.toAdvance.congr same }

end Declares

theorem Advance.then_declares {s t u : Compiler} (passed : Advance s t [] (fun _ => []) [])
    {names : List String} {code : Pool → List Slot} {fs : List Function}
    (declares : Declares t u names code fs) : Declares s u names code fs where
  toAdvance := by
    have whole := passed.trans declares.toAdvance
    have sameFresh : fresh t names = fresh s names := by rw [fresh, fresh, passed.depth]
    rw [List.append_nil, sameFresh] at whole
    exact whole
  room := declares.room
  shorter := Nat.lt_of_lt_of_le declares.shorter passed.fewer

structure SamePlace (s t : Compiler) : Prop where
  unit : t.unit = s.unit
  depth : t.draft.depth = s.draft.depth
  scope : t.scope = s.scope
  site : t.site = s.site
  here : t.here = s.here

theorem Advance.samePlace {s t : Compiler} (passed : Advance s t [] (fun _ => []) [])
    (shape : Scoped s) : SamePlace s t where
  unit := passed.unit_eq
  depth := passed.depth
  scope := passed.scope_nil
  site := passed.site_eq shape.nonempty (by simp)
  here := passed.writes.here_eq (.refl _)

theorem Advance.then_tree {s t u : Compiler} (passed : Advance s t [] (fun _ => []) [])
    (shape : Scoped s) {tree : Statement} {fs : List Function}
    (declares : Declares t u [] (fun pool => tree.code pool t.unit t.scope t.site t.here) fs) :
    Declares s u [] (fun pool => tree.code pool s.unit s.scope s.site s.here) fs := by
  have place := passed.samePlace shape
  rw [place.unit, place.scope, place.site, place.here] at declares
  exact passed.then_declares declares

/-- Reading statements with the given fuel: a result without diagnostics means that a tree was read
and that its code was written. -/
structure StatementReads (fuel : Nat) : Prop where
  declaration : ∀ {s : Compiler}, Ready s → Scoped s →
    16 * s.tokens.length + 9 ≤ fuel → (declaration fuel s).diagnostics = #[] →
    ∃ d, Reader.declaration fuel s.created s.stream =
        some (d, (declaration fuel s).created, (declaration fuel s).stream) ∧
      Declares s (declaration fuel s) (d.names (s.draft.depth == 0))
        (fun pool => d.code pool s.unit (s.draft.depth == 0) s.scope s.site s.here) d.functions
  functionDeclaration : ∀ {s : Compiler}, Ready s → 1 ≤ s.previous.line → Scoped s →
    16 * s.tokens.length + 8 ≤ fuel → (functionDeclaration fuel s).diagnostics = #[] →
    ∃ f, Reader.functionRest fuel s.created s.stream =
        some (f, (functionDeclaration fuel s).created, (functionDeclaration fuel s).stream) ∧
      Declares s (functionDeclaration fuel s)
        ((Declaration.function f).names (s.draft.depth == 0))
        (fun pool => (Declaration.function f).code pool s.unit (s.draft.depth == 0) s.scope s.site
          s.here) [f]
  function : ∀ {s : Compiler} {name : String}, Ready s → 1 ≤ s.previous.line → Scoped s →
    16 * s.tokens.length + 8 ≤ fuel → (function fuel name s).diagnostics = #[] →
    ∃ f, Reader.functionTail fuel name s.created s.stream =
        some (f, (function fuel name s).created, (function fuel name s).stream) ∧
      f.name = name ∧
      Advance s (function fuel name s) []
        (fun pool => fixedSlots [⟨.constant, pool.findRoutine ⟨s.unit, f.index⟩⟩]) [f]
  block : ∀ {s : Compiler}, Ready s → Scoped s → Deep s →
    16 * s.tokens.length + 10 ≤ fuel → (block fuel s).diagnostics = #[] →
    ∃ body, Reader.block fuel s.created s.stream =
        some (body, (block fuel s).created, (block fuel s).stream) ∧
      Declares s (block fuel s) (namesOf (s.draft.depth == 0) body)
        (fun pool => codeOfBody pool s.unit (s.draft.depth == 0) s.scope s.site s.here body)
        (functionsOf body)
  statement : ∀ {s : Compiler}, Ready s → Scoped s →
    16 * s.tokens.length + 8 ≤ fuel → (statement fuel s).diagnostics = #[] →
    ∃ tree, Reader.statement fuel s.created s.stream =
        some (tree, (statement fuel s).created, (statement fuel s).stream) ∧
      Declares s (statement fuel s) []
        (fun pool => tree.code pool s.unit s.scope s.site s.here) tree.functions
  ifStatement : ∀ {s : Compiler}, Ready s → Scoped s →
    16 * s.tokens.length + 8 ≤ fuel → (ifStatement fuel s).diagnostics = #[] →
    ∃ tree, Reader.ifRest fuel s.created s.stream =
        some (tree, (ifStatement fuel s).created, (ifStatement fuel s).stream) ∧
      Declares s (ifStatement fuel s) []
        (fun pool => tree.code pool s.unit s.scope s.site s.here) tree.functions
  whileStatement : ∀ {s : Compiler}, Ready s → Scoped s →
    16 * s.tokens.length + 8 ≤ fuel → (whileStatement fuel s).diagnostics = #[] →
    ∃ tree, Reader.whileRest fuel s.created s.stream =
        some (tree, (whileStatement fuel s).created, (whileStatement fuel s).stream) ∧
      Declares s (whileStatement fuel s) []
        (fun pool => tree.code pool s.unit s.scope s.site s.here) tree.functions
  forStatement : ∀ {s : Compiler}, Ready s → Scoped s →
    16 * s.tokens.length + 8 ≤ fuel → (forStatement fuel s).diagnostics = #[] →
    ∃ tree, Reader.forRest fuel s.created s.stream =
        some (tree, (forStatement fuel s).created, (forStatement fuel s).stream) ∧
      Declares s (forStatement fuel s) []
        (fun pool => tree.code pool s.unit s.scope s.site s.here) tree.functions

theorem Scoped.pushLoop {s : Compiler} (shape : Scoped s) {start : Nat} (before : start ≤ s.here) :
    Scoped (s.pushLoop start) where
  nonempty := shape.nonempty
  bounded := shape.bounded
  room := shape.room
  numbered := shape.numbered
  behind := by
    intro loop member
    rcases List.mem_cons.mp member with this | outer
    · rw [this]
      exact before
    · exact shape.behind loop outer
  inside := by
    intro loop member
    rcases List.mem_cons.mp member with this | outer
    · rw [this]
      exact Nat.le_refl _
    · exact shape.inside loop outer

theorem Scoped.beginScope {s : Compiler} (shape : Scoped s) : Scoped s.beginScope where
  nonempty := shape.nonempty
  bounded := by
    intro l member
    obtain ⟨d, known, bound⟩ := shape.bounded l member
    exact ⟨d, known, Nat.le_succ_of_le bound⟩
  room := shape.room
  numbered := shape.numbered
  behind := shape.behind
  inside := fun loop member => Nat.le_succ_of_le (shape.inside loop member)

theorem Scoped.site_pushLoop {s : Compiler} (shape : Scoped s) (start : Nat) :
    (s.pushLoop start).site = some ⟨start, s.scope.length⟩ := by
  have none : s.draft.locals.dropLast.dropWhile (Local.isDeeper s.draft.depth) =
      s.draft.locals.dropLast := by
    cases localsEq : s.draft.locals.dropLast with
    | nil => rfl
    | cons l rest =>
        have member : l ∈ s.draft.locals.dropLast := by rw [localsEq]; exact List.mem_cons_self
        obtain ⟨d, known, bound⟩ := shape.bounded l (List.dropLast_subset _ member)
        rw [List.dropWhile_cons_of_neg]
        simp only [Local.isDeeper, known, Option.any_some, decide_eq_true_eq]
        omega
  rw [shape.scope_eq, List.length_map, ← none]
  rfl

theorem Advance.then_statement {s t u : Compiler} {code : Pool → List Slot} {fs : List Function}
    (first : Advance s t [] code fs) (nonempty : s.draft.locals ≠ []) {tree : Statement}
    (second : Advance t u []
      (fun pool => tree.code pool t.unit t.scope t.site t.here) tree.functions) :
    Advance s u [] (fun pool => code pool ++
      tree.code pool s.unit s.scope s.site (s.here + slotsSize (code pool)))
      (fs ++ tree.functions) := by
  refine (first.trans second).congr fun pool grown => ?_
  have here := first.writes.here_eq (second.writes.grown.trans grown)
  rw [first.unit_eq, first.scope_nil, first.site_eq nonempty (by simp), here]

def closeTest (exit : Option Nat) (s : Compiler) : Compiler :=
  match exit with
  | some position => (s.patchJump position).emitOp .pop
  | none => s

theorem reports_closeTest (exit : Option Nat) (s : Compiler) : Reports s (closeTest exit s) := by
  cases exit with
  | none => exact .refl s
  | some position => exact (reports_patchJump s position).emitOp .pop

@[simp] theorem stream_closeTest (exit : Option Nat) (s : Compiler) :
    (closeTest exit s).stream = s.stream := by
  cases exit with
  | none => rfl
  | some position => rw [closeTest, stream_emitOp, stream_patchJump]

@[simp] theorem created_closeTest (exit : Option Nat) (s : Compiler) :
    (closeTest exit s).created = s.created := by
  cases exit with
  | none => rfl
  | some position => rw [closeTest, created_emitOp, created_patchJump]

@[simp] theorem pool_closeTest (exit : Option Nat) (s : Compiler) :
    (closeTest exit s).pool = s.pool := by
  cases exit with
  | none => rfl
  | some position => rw [closeTest, pool_emitOp, pool_patchJump]

theorem Advance.closeTest {s t : Compiler} {scope : List String} {c : Option Expression}
    {after : Pool → List Slot} {fs : List Function} {exit : Option Nat}
    (first : Advance s t []
      (fun pool => fixedSlots (testCode pool scope Slot.unset c) ++ after pool) fs)
    (rigid : ∀ pool, t.pool.Grows pool → testCode pool scope Slot.unset c =
      testCode t.pool scope Slot.unset c)
    (exits : exit = c.map fun e => s.here + codeSize (e.code t.pool scope) + 1)
    (done : (closeTest exit t).diagnostics = #[]) :
    Advance s (Compiler.closeTest exit t) [] (fun pool =>
        fixedSlots (testCode pool scope (slotsSize (after pool) + 1) c) ++ after pool ++
          fixedSlots (closingCode c)) fs ∧
      (Compiler.closeTest exit t).here = t.here + codeSize (closingCode c) := by
  subst exits
  cases c with
  | none =>
      refine ⟨first.congr fun pool _ => ?_, rfl⟩
      exact (List.append_nil _).symm
  | some e =>
      have split : Advance s t [] (fun pool => fixedSlots (e.code pool scope) ++
          .fixed ⟨.jumpIfFalse, Slot.unset⟩ :: (.fixed ⟨.pop, 0⟩ :: after pool)) fs := by
        refine first.congr fun pool _ => ?_
        rw [testCode, fixedSlots_append, List.append_assoc]
        rfl
      have rigidTest : ∀ pool, t.pool.Grows pool →
          fixedSlots (e.code pool scope) = fixedSlots (e.code t.pool scope) := by
        intro pool grown
        exact congrArg fixedSlots (List.append_cancel_right (rigid pool grown))
      have patched := split.patch rfl rigidTest (by rw [slotsSize_fixedSlots])
        (((Reports.refl _).emitOp .pop).clean done)
      refine ⟨(patched.emitOp .pop rfl).congr fun pool _ => ?_, ?_⟩
      · have distance : slotsSize (.fixed ⟨.pop, 0⟩ :: after pool) = slotsSize (after pool) + 1 :=
          Nat.add_comm _ _
        rw [distance, testCode, fixedSlots_append]
        simp only [List.append_assoc]
        rfl
      · exact (here_emitOp _ _).trans (by rw [here_patchJump]; rfl)

theorem recover_eq {s : Compiler} (audible : s.silent = false) : s.recover = s := by
  rw [recover, audible]
  rfl

theorem created_defineVariable (s : Compiler) (byte : UInt8) :
    (s.defineVariable byte).created = s.created := by
  rw [defineVariable]
  split
  · rw [markInitialized]
    split
    · rfl
    · split <;> rfl
  · rfl

def consequentCode (s : Compiler) (c : Expression) (tree : Statement) (pool : Pool) : List Slot :=
  let code := tree.code pool s.unit s.scope s.site (s.here + codeSize (c.code pool s.scope) + 4)
  fixedSlots (c.code pool s.scope) ++
    .fixed ⟨.jumpIfFalse, slotsSize code + 4⟩ :: .fixed ⟨.pop, 0⟩ :: code

theorem slotsSize_consequentCode (s : Compiler) (c : Expression) (tree : Statement) (pool : Pool) :
    slotsSize (consequentCode s c tree pool) = codeSize (c.code pool s.scope) + 4 + slotsSize
      (tree.code pool s.unit s.scope s.site (s.here + codeSize (c.code pool s.scope) + 4)) := by
  rw [consequentCode, slotsSize_append, slotsSize_fixedSlots]
  simp only [slotsSize, Slot.size, Slot.draft, Directive.size, Operation.operand, Operand.width]
  omega

/-- The clauses of a loop have been written: the next round begins at `start`, and a test that fails
leaves by the jump at `exit`. -/
structure Headed (s t : Compiler) (c step : Option Expression) (start : Nat) (exit : Option Nat) :
    Prop where
  advance : Advance s t [] (fun pool => fixedSlots (testCode pool s.scope Slot.unset c ++
    stepCode pool s.scope (s.here + codeSize (testCode pool s.scope 0 c)) s.here step)) []
  again : ∀ pool, t.pool.Grows pool →
    start = stepStart (s.here + codeSize (testCode pool s.scope 0 c)) s.here step
  rigid : ∀ pool, t.pool.Grows pool → testCode pool s.scope Slot.unset c =
    testCode t.pool s.scope Slot.unset c
  exits : exit = c.map fun e => s.here + codeSize (e.code t.pool s.scope) + 1

theorem Headed.later {s t : Compiler} {c step : Option Expression} {start : Nat} {exit : Option Nat}
    (headed : Headed s t c step start exit) {p : Pool} (grown : t.pool.Grows p) :
    (∀ pool, p.Grows pool → testCode pool s.scope Slot.unset c = testCode p s.scope Slot.unset c) ∧
      exit = c.map fun e => s.here + codeSize (e.code p s.scope) + 1 := by
  refine ⟨fun pool more => (headed.rigid pool (grown.trans more)).trans (headed.rigid p grown).symm, ?_⟩
  rw [headed.exits]
  cases c with
  | none => rfl
  | some e =>
      have same := List.append_cancel_right (headed.rigid p grown)
      rw [Option.map_some, Option.map_some, same]

theorem Ready.forClauses {fuel : Nat} {t u v : Compiler} {start : Nat} {exit : Option Nat}
    (ready : Ready t) (room : t.draft.locals.length ≤ maxLocals)
    (enough : 16 * t.tokens.length + 2 ≤ fuel) (tested : Compiler.forCondition fuel t = (u, exit))
    (stepped : Compiler.forIncrement fuel t.here u = (v, start)) (done : v.diagnostics = #[]) :
    ∃ c step, Reader.clause fuel .semicolon t.stream = some (c, u.stream) ∧
      Reader.clause fuel .colon u.stream = some (step, v.stream) ∧
      v.tokens.length < t.tokens.length ∧ Headed t v c step start exit := by
  have cleanStep : (Compiler.forIncrement fuel t.here u).1.diagnostics = #[] := by
    rw [stepped]
    exact done
  have cleanTest : (Compiler.forCondition fuel t).1.diagnostics = #[] := by
    rw [tested]
    exact (reports_forIncrement _ _ _).clean cleanStep
  obtain ⟨c, readTest, stageTest, shorterTest, exits⟩ := ready.forCondition enough room cleanTest
  rw [tested] at readTest stageTest shorterTest exits
  dsimp only at readTest stageTest shorterTest exits
  have hereTest : ∀ pool, u.pool.Grows pool →
      u.here = t.here + codeSize (testCode pool t.scope 0 c) := by
    intro pool grown
    rw [stageTest.writes.here_eq grown, slotsSize_fixedSlots,
      codeSize_testCode pool t.scope Slot.unset 0]
  have rigidTest : ∀ pool, u.pool.Grows pool → testCode pool t.scope Slot.unset c =
      testCode u.pool t.scope Slot.unset c := by
    intro pool grown
    have same := congrArg (List.map Slot.draft) (stageTest.writes.rigid grown)
    rwa [map_draft_fixedSlots, map_draft_fixedSlots] at same
  obtain ⟨step, readStep, stageStep, shorterStep, again⟩ := stageTest.ready.forIncrement
    (by omega) stageTest.positive (stageTest.room room)
    (show t.here ≤ u.here by rw [hereTest _ (.refl _)]; exact Nat.le_add_right _ _) cleanStep
  rw [stepped] at readStep stageStep shorterStep again
  have grownStep := stageStep.writes.grown
  refine ⟨c, step, readTest, readStep, Nat.lt_trans shorterStep shorterTest, ⟨?_, ?_, ?_, ?_⟩⟩
  · refine ((Advance.of_stage stageTest).andThen stageStep).congr fun pool grown => ?_
    rw [stageTest.toKept.scope_eq, hereTest pool (grownStep.trans grown), fixedSlots_append]
  · intro pool grown
    rw [← hereTest pool (grownStep.trans grown)]
    exact again
  · exact fun pool grown =>
      (rigidTest pool (grownStep.trans grown)).trans (rigidTest _ grownStep).symm
  · refine exits.trans ?_
    cases c with
    | none => rfl
    | some e =>
        have same := List.append_cancel_right (rigidTest _ grownStep)
        rw [Option.map_some, Option.map_some, same]

def roundCode (s : Compiler) (c step : Option Expression) (start : Nat) (tree : Statement)
    (pool : Pool) : List Slot :=
  let clause := s.here + codeSize (testCode pool s.scope 0 c)
  let increment := stepCode pool s.scope clause s.here step
  fixedSlots increment ++
    tree.code pool s.unit s.scope (some ⟨start, s.scope.length⟩) (clause + codeSize increment)

namespace StatementReads

variable {fuel : Nat} (ih : StatementReads fuel) {s : Compiler} (ready : Ready s) (shape : Scoped s)

include ih ready shape

theorem block_succ (deep : Deep s) (enough : 16 * s.tokens.length + 10 ≤ fuel + 1)
    (done : (Compiler.block (fuel + 1) s).diagnostics = #[]) :
    ∃ body, Reader.block (fuel + 1) s.created s.stream =
        some (body, (Compiler.block (fuel + 1) s).created,
          (Compiler.block (fuel + 1) s).stream) ∧
      Declares s (Compiler.block (fuel + 1) s) (namesOf (s.draft.depth == 0) body)
        (fun pool => codeOfBody pool s.unit (s.draft.depth == 0) s.scope s.site s.here body)
        (functionsOf body) := by
  rw [Compiler.block] at done ⊢
  rw [Reader.block]
  simp only [kindAt_stream, drop_stream]
  by_cases closing : s.check .rightBrace = true
  · rw [closing, Bool.true_or, if_pos rfl] at done ⊢
    obtain ⟨-, consumed⟩ := ready.consume_eq done
    have more : s.current.kind ≠ .eof := by
      rw [eq_of_beq closing]
      decide
    rw [consumed] at done ⊢
    obtain ⟨passed, stream, shorter⟩ := ready.advanced more done
    refine ⟨[], ?_, ?_⟩
    · refine (if_pos closing).trans ?_
      rw [passed.still rfl, stream]
    · refine ⟨passed.congr fun pool _ => ?_, passed.room_nil shape, shorter⟩
      rw [codeOfBody]
  · have isBrace : s.check .rightBrace = false := by simpa using closing
    rw [isBrace, Bool.false_or] at done ⊢
    by_cases ended : s.check .eof = true
    · rw [if_pos ended] at done
      obtain ⟨matched, -⟩ := ready.consume_eq done
      exact absurd (beq_iff_eq.mpr matched) closing
    · rw [if_neg ended] at done ⊢
      have clean := ((statementReports fuel).block _).clean done
      obtain ⟨d, read, declares⟩ := ih.declaration ready shape (by omega) clean
      have shorter := declares.shorter
      obtain ⟨body, readBody, declaresBody⟩ := ih.block declares.ready (declares.shape shape)
        (deep.of_advance declares.toAdvance) (by omega) done
      refine ⟨d :: body, ?_, ?_, ?_, ?_⟩
      · refine (if_neg closing).trans ((if_neg ended).trans ?_)
        rw [read]
        simp only [Option.bind_eq_bind, Option.bind_some, readBody]
      · have whole := declares.toAdvance.trans declaresBody.toAdvance
        have sameFresh : ∀ names, fresh (Compiler.declaration fuel s) names = fresh s names := by
          intro names
          rw [fresh, fresh, declares.depth]
        rw [sameFresh, declares.depth] at whole
        rw [namesOf, functionsOf, fresh, List.map_append]
        refine whole.congr fun pool grown => ?_
        have here := declares.writes.here_eq (declaresBody.writes.grown.trans grown)
        rw [codeOfBody, declares.unit_eq, declares.scope_eq shape,
          declares.site_eq shape (.inl deep), here]
      · exact declaresBody.room
      · exact Nat.lt_trans declaresBody.shorter shorter

theorem declaration_succ (enough : 16 * s.tokens.length + 9 ≤ fuel + 1)
    (done : (Compiler.declaration (fuel + 1) s).diagnostics = #[]) :
    ∃ d, Reader.declaration (fuel + 1) s.created s.stream =
        some (d, (Compiler.declaration (fuel + 1) s).created,
          (Compiler.declaration (fuel + 1) s).stream) ∧
      Declares s (Compiler.declaration (fuel + 1) s) (d.names (s.draft.depth == 0))
        (fun pool => d.code pool s.unit (s.draft.depth == 0) s.scope s.site s.here)
        d.functions := by
  rw [Compiler.declaration] at done ⊢
  rw [Reader.declaration]
  simp only [kindAt_stream, drop_stream] at done ⊢
  have clean := (reports_recover _).clean done
  by_cases isFn : s.check .fn = true
  · rw [if_pos isFn] at clean ⊢
    have more : s.current.kind ≠ .eof := by
      rw [eq_of_beq isFn]
      decide
    have cleanAdvance := ((statementReports fuel).functionDeclaration _).clean clean
    obtain ⟨passed, stream, shorter⟩ := ready.advanced more cleanAdvance
    have shapePassed := shape.of_advance_nil passed
    obtain ⟨f, read, declares⟩ := ih.functionDeclaration passed.ready passed.positive shapePassed
      (by omega) clean
    have place := passed.samePlace shape
    rw [place.unit, place.depth, place.scope, place.site, place.here] at declares
    rw [recover_eq declares.audible]
    refine ⟨.function f, ?_, passed.then_declares declares⟩
    refine (if_pos isFn).trans ?_
    rw [← stream, ← passed.still rfl, read]
    rfl
  · rw [if_neg isFn] at clean ⊢
    by_cases isVar : s.check .var = true
    · rw [if_pos isVar] at clean ⊢
      have more : s.current.kind ≠ .eof := by
        rw [eq_of_beq isVar]
        decide
      have cleanAdvance := (reports_varDeclaration _ _).clean clean
      obtain ⟨passed, stream, shorter⟩ := ready.advanced more cleanAdvance
      have shapePassed := shape.of_advance_nil passed
      obtain ⟨name, value, read, declares⟩ := passed.ready.varDeclaration shapePassed (by omega)
        passed.positive clean
      have place := passed.samePlace shape
      rw [place.depth, place.scope] at declares
      rw [recover_eq declares.audible]
      refine ⟨.var name value, ?_, passed.then_declares declares⟩
      refine (if_neg isFn).trans ((if_pos isVar).trans ?_)
      rw [← stream, read, declares.still rfl, passed.still rfl]
      rfl
    · rw [if_neg isVar] at clean ⊢
      obtain ⟨tree, read, declares⟩ := ih.statement ready shape (by omega) clean
      rw [recover_eq declares.audible]
      refine ⟨.statement tree, ?_, declares⟩
      refine (if_neg isFn).trans ((if_neg isVar).trans ?_)
      rw [read]
      rfl

theorem functionDeclaration_succ (positive : 1 ≤ s.previous.line)
    (enough : 16 * s.tokens.length + 8 ≤ fuel + 1)
    (done : (Compiler.functionDeclaration (fuel + 1) s).diagnostics = #[]) :
    ∃ f, Reader.functionRest (fuel + 1) s.created s.stream =
        some (f, (Compiler.functionDeclaration (fuel + 1) s).created,
          (Compiler.functionDeclaration (fuel + 1) s).stream) ∧
      Declares s (Compiler.functionDeclaration (fuel + 1) s)
        ((Declaration.function f).names (s.draft.depth == 0))
        (fun pool => (Declaration.function f).code pool s.unit (s.draft.depth == 0) s.scope s.site
          s.here) [f] := by
  rw [Compiler.functionDeclaration] at done ⊢
  rw [Reader.functionRest]
  simp only [] at done ⊢
  have cleanBody := (reports_defineVariable _ _).clean done
  have cleanMark := ((statementReports fuel).function _ _).clean cleanBody
  have cleanName := (reports_markInitialized _).clean cleanMark
  obtain ⟨name, read, lexeme, shorter, room, declares, names⟩ :=
    (Advance.refl ready positive).parseVariable shape.room cleanName
  obtain ⟨marked, stream, sameRoom⟩ := declares.markInitialized
  have previous : (s.parseVariable .expectFunctionName).1.markInitialized.previous =
      (s.parseVariable .expectFunctionName).1.previous := by
    rw [Compiler.markInitialized]
    split
    · rfl
    · split <;> rfl
  rw [← previous] at lexeme
  have later : (s.parseVariable .expectFunctionName).1.pool.Grows
      (s.parseVariable .expectFunctionName).1.markInitialized.pool := by
    rw [Compiler.markInitialized]
    split
    · exact .refl _
    · split <;> exact .refl _
  have shapeMarked : Scoped (s.parseVariable .expectFunctionName).1.markInitialized := by
    refine shape.of_advance marked ?_ (by rw [sameRoom]; exact room)
    rw [fresh_declared, fresh]
    intro l member
    obtain ⟨x, -, rfl⟩ := List.mem_map.mp member
    rfl
  have fewer := SameInput.of_stream stream
  rw [← stream] at read
  have namesMarked := fun outside => (names outside).later later
  generalize (s.parseVariable .expectFunctionName).2 = byte at *
  generalize (s.parseVariable .expectFunctionName).1.markInitialized = t at *
  obtain ⟨f, readBody, named, body⟩ := ih.function marked.ready marked.positive shapeMarked
    (by omega) cleanBody
  rw [lexeme] at named
  subst named
  obtain ⟨defined, streamDefined, roomDefined⟩ := (marked.trans body).defineVariable fun outside =>
    (namesMarked outside).later body.writes.grown
  have fewerBody := body.fewer
  refine ⟨f, ?_, ?_, ?_, ?_⟩
  · rw [read]
    simp only [Option.bind_eq_bind, Option.bind_some]
    rw [← marked.still rfl, ← lexeme, readBody, created_defineVariable, streamDefined]
  · rw [fresh_declared, List.nil_append] at defined
    refine defined.congr fun pool _ => ?_
    rw [marked.unit_eq, Declaration.code]
    rfl
  · rw [roomDefined, body.locals]
    exact shapeMarked.room
  · rw [SameInput.of_stream streamDefined]
    omega

omit ready shape in
theorem function_body {name : String} {t : Compiler} {names : List String}
    (lists : Lists (s.openRoutine name).beginScope t names) (positive : 1 ≤ t.previous.line)
    (readList : Reader.parameterList fuel s.stream = some (names, t.stream))
    (enough : 16 * t.tokens.length + 8 ≤ fuel) {u : Compiler}
    (body : (if t.check .equal then
      ((expression fuel t.advance).consume .semicolon .expectSemicolonAfterFunction).emitOp .return
      else (Compiler.block fuel (t.consume .leftBrace .expectBraceBeforeBody)).emitFalseReturn) = u)
    (done : u.diagnostics = #[]) :
    ∃ f, Reader.functionTail (fuel + 1) name s.created s.stream = some (f, u.created, u.stream) ∧
      f.name = name ∧ Drafted s u f := by
  obtain ⟨shapeT, deep, scopeT, siteT, hereT, depthT⟩ := lists.entered
  have start := Advance.refl lists.ready positive
  have created : t.created = s.created + 1 := lists.created
  rw [Reader.functionTail, readList]
  simp only [Option.bind_eq_bind, Option.bind_some, kindAt_stream, drop_stream]
  by_cases isEqual : t.check .equal = true
  · rw [if_pos isEqual] at body
    subst body
    have cleanEnd := (Reports.refl _).emitOp .return |>.clean done
    have cleanAdvance := ((reports_expression _ _).trans (reports_consume _ _ _)).clean cleanEnd
    have more : t.current.kind ≠ .eof := by
      rw [eq_of_beq isEqual]
      decide
    obtain ⟨passed, stream, shorter⟩ := lists.ready.advanced more cleanAdvance
    obtain ⟨e, read, stage, -⟩ := passed.ready.expressionThen (passed.room_nil shapeT) (by omega)
      (by decide) cleanEnd
    have whole := (passed.andThen stage).emitOp .return rfl
    refine ⟨⟨s.created, name, names, [], some e⟩, ?_, rfl,
      lists.drafted whole rfl rfl rfl (by rw [functionsOf]) ?_⟩
    · refine (if_pos isEqual).trans ?_
      rw [← stream, read, stream_emitOp]
      have createdEnd : (((expression fuel t.advance).consume .semicolon
          .expectSemicolonAfterFunction).emitOp .return).created = s.created + 1 :=
        (whole.still rfl).trans created
      rw [createdEnd]
      rfl
    · rw [Function.code, codeOfBody, List.map_append, List.map_append, map_draft_fixedSlots,
        map_draft_fixedSlots, passed.scope_nil, scopeT]
      rfl
  · rw [if_neg isEqual] at body
    subst body
    have cleanBlock := ((Reports.refl _).emitOp .false |>.emitOp .return).clean done
    have cleanBrace := ((statementReports fuel).block _).clean cleanBlock
    obtain ⟨passed, expected, shorter⟩ := start.consume (by decide) cleanBrace
    have place := passed.samePlace shapeT
    obtain ⟨body, read, declares⟩ := ih.block passed.ready (shapeT.of_advance_nil passed)
      (deep.of_advance passed) (by omega) cleanBlock
    rw [place.unit, place.depth, place.scope, place.site, place.here, depthT, scopeT, siteT, hereT]
      at declares
    have whole := ((passed.then_declares declares).toAdvance.emitOp .false rfl).emitOp .return rfl
    refine ⟨⟨s.created, name, names, body, none⟩, ?_, rfl,
      lists.drafted whole rfl rfl rfl rfl ?_⟩
    · refine (if_neg isEqual).trans ?_
      rw [expected]
      simp only [Option.bind_some]
      rw [← created, ← passed.still rfl, read]
      rfl
    · rw [Function.code, List.map_append, List.map_append, map_draft_fixedSlots,
        map_draft_fixedSlots]
      rfl

theorem function_succ {name : String} (positive : 1 ≤ s.previous.line)
    (enough : 16 * s.tokens.length + 8 ≤ fuel + 1)
    (done : (Compiler.function (fuel + 1) name s).diagnostics = #[]) :
    ∃ f, Reader.functionTail (fuel + 1) name s.created s.stream =
        some (f, (Compiler.function (fuel + 1) name s).created,
          (Compiler.function (fuel + 1) name s).stream) ∧
      f.name = name ∧
      Advance s (Compiler.function (fuel + 1) name s) []
        (fun pool => fixedSlots [⟨.constant, pool.findRoutine ⟨s.unit, f.index⟩⟩]) [f] := by
  rw [Compiler.function] at done ⊢
  simp only [] at done ⊢
  generalize listEq : Compiler.parameterList fuel (s.openRoutine name).beginScope = t at done ⊢
  generalize bodyEq : (if t.check .equal then
    ((expression fuel t.advance).consume .semicolon .expectSemicolonAfterFunction).emitOp .return
    else (Compiler.block fuel (t.consume .leftBrace .expectBraceBeforeBody)).emitFalseReturn) = u
    at done ⊢
  have cleanBody := (reports_closeRoutine u).clean done
  have cleanList : t.diagnostics = #[] := by
    rw [← bodyEq] at cleanBody
    split at cleanBody
    · exact (((reports_advance _).trans (reports_expression _ _)).trans
        (reports_consume _ _ _)).emitOp .return |>.clean cleanBody
    · exact ((((reports_consume _ _ _).trans ((statementReports fuel).block _)).emitOp
        .false).emitOp .return).clean cleanBody
  obtain ⟨names, readList, lists, positiveT, fewer⟩ := (ready.opened name).parameterList positive
    Nat.one_pos (by simp [openRoutine, beginScope, Draft.start, maxLocals])
    (show s.tokens.length < fuel by omega) (by rw [listEq]; exact cleanList)
  rw [listEq] at readList lists positiveT fewer
  have fewerT : t.tokens.length < s.tokens.length := fewer
  obtain ⟨f, read, named, drafted⟩ := ih.function_body lists positiveT readList
    (by omega) bodyEq cleanBody
  obtain ⟨advance, stream, created⟩ := drafted.closeRoutine shape done
  refine ⟨f, ?_, named, advance⟩
  rw [read, stream, created]

theorem else_clause (positive : 1 ≤ s.previous.line) (enough : 16 * s.tokens.length + 8 ≤ fuel)
    {t : Compiler} (clause : (if s.check .else then
      Compiler.statement fuel (s.advance.consume .colon .expectColonAfterElse) else s) = t)
    (done : t.diagnostics = #[]) (c : Expression) (s₁ : Statement) :
    ∃ s₂ : Statement, (if Reader.kindAt s.stream == .else then do
          let ts ← Reader.expect .colon (s.stream.drop 1)
          let (s₂, count, ts) ← Reader.statement fuel s.created ts
          some (Statement.ifElse c s₁ s₂, count, ts)
        else some (Statement.ifElse c s₁ .empty, s.created, s.stream)) =
          some (Statement.ifElse c s₁ s₂, t.created, t.stream) ∧
      Advance s t [] (fun pool => s₂.code pool s.unit s.scope s.site s.here) s₂.functions := by
  by_cases isElse : s.check .else = true
  · rw [if_pos isElse] at clause
    subst clause
    have more : s.current.kind ≠ .eof := by
      rw [eq_of_beq isElse]
      decide
    have cleanColon := ((statementReports fuel).statement _).clean done
    have cleanAdvance := (reports_consume _ _ _).clean cleanColon
    obtain ⟨passed, stream, shorter⟩ := ready.advanced more cleanAdvance
    obtain ⟨colon, expected, shorterColon⟩ := passed.consume (by decide) cleanColon
    obtain ⟨s₂, read, declares⟩ := ih.statement colon.ready (shape.of_advance_nil colon)
      (by omega) done
    refine ⟨s₂, ?_, (colon.then_tree shape declares).toAdvance⟩
    refine (if_pos isElse).trans ?_
    rw [drop_stream, ← stream, expected, ← colon.still rfl]
    simp only [Option.bind_eq_bind, Option.bind_some, read]
  · rw [if_neg isElse] at clause
    subst clause
    refine ⟨.empty, if_neg isElse, (Advance.refl ready positive).congr fun pool _ => ?_⟩
    rw [Statement.code]

omit ready in
theorem consequent {t u v : Compiler} {c : Expression}
    (test : Advance s t [] (fun pool => fixedSlots (c.code pool s.scope)) [])
    (enough : 16 * t.tokens.length + 8 ≤ fuel)
    (body : Compiler.statement fuel ((t.emitJump .jumpIfFalse).emitOp .pop) = u)
    (joined : ((u.emitJump .jump).patchJump (t.here + 1)).emitOp .pop = v)
    (done : v.diagnostics = #[]) :
    ∃ tree, Reader.statement fuel s.created t.stream = some (tree, v.created, v.stream) ∧
      v.tokens.length < t.tokens.length ∧
      Advance s v [] (fun pool => consequentCode s c tree pool ++
        [.fixed ⟨.jump, Slot.unset⟩, .fixed ⟨.pop, 0⟩]) tree.functions ∧
      ∀ pool, v.pool.Grows pool → u.here = s.here + slotsSize (consequentCode s c tree pool) := by
  subst joined
  have cleanPatch := ((Reports.refl _).emitOp .pop).clean done
  have cleanBody := ((Reports.refl _).emitJump .jump |>.trans (reports_patchJump _ _)).clean cleanPatch
  have opened := (test.emitJump .jumpIfFalse rfl).emitOp .pop rfl
  obtain ⟨tree, read, declares⟩ := ih.statement opened.ready (shape.of_advance_nil opened)
    enough (by rw [body]; exact cleanBody)
  have whole := opened.then_statement shape.nonempty declares.toAdvance
  have shorter := declares.shorter
  have grown : ((t.emitJump .jumpIfFalse).emitOp .pop).pool.Grows
    (Compiler.statement fuel ((t.emitJump .jumpIfFalse).emitOp .pop)).pool := declares.writes.grown
  rw [stream_emitOp, stream_emitJump, opened.still rfl] at read
  rw [body] at read whole shorter grown
  replace grown : t.pool.Grows u.pool := grown
  have written : Advance s (u.emitJump .jump) [] (fun pool => fixedSlots (c.code pool s.scope) ++
      .fixed ⟨.jumpIfFalse, Slot.unset⟩ :: (.fixed ⟨.pop, 0⟩ ::
        (tree.code pool s.unit s.scope s.site (s.here + codeSize (c.code pool s.scope) + 4) ++
          [.fixed ⟨.jump, Slot.unset⟩]))) tree.functions := by
    refine (whole.emitJump .jump rfl).congr fun pool _ => ?_
    have size : slotsSize (fixedSlots (c.code pool s.scope) ++
        fixedSlots [⟨.jumpIfFalse, Slot.unset⟩] ++ fixedSlots [⟨.pop, 0⟩]) =
          codeSize (c.code pool s.scope) + 4 := by
      rw [slotsSize_append, slotsSize_append, slotsSize_fixedSlots]
      rfl
    rw [size, ← Nat.add_assoc]
    simp only [List.append_assoc]
    rfl
  have rigid : ∀ pool, u.pool.Grows pool → fixedSlots (c.code pool s.scope) =
      fixedSlots (c.code u.pool s.scope) := fun pool later =>
    (test.writes.rigid (grown.trans later)).trans (test.writes.rigid grown).symm
  have patched := written.patch rfl rigid (by rw [test.writes.here_eq grown]; rfl) cleanPatch
  have patchedOnly := Patched.of_patch written.audible cleanPatch
  refine ⟨tree, ?_, ?_, (patched.emitOp .pop rfl).congr fun pool _ => ?_, fun pool later => ?_⟩
  · rw [read, stream_emitOp, stream_patchJump, stream_emitJump, created_emitOp, created_patchJump,
      created_emitJump]
  · have stream : (((u.emitJump .jump).patchJump (t.here + 1)).emitOp .pop).stream = u.stream := by
      rw [stream_emitOp, stream_patchJump, stream_emitJump]
    rw [SameInput.of_stream stream]
    exact shorter
  · have distance (code : List Slot) :
        slotsSize (.fixed ⟨.pop, 0⟩ :: (code ++ [.fixed ⟨.jump, Slot.unset⟩])) =
          slotsSize code + 4 := by
      rw [slotsSize, slotsSize_append, Nat.add_comm]
      rfl
    rw [distance, consequentCode]
    simp [fixedSlots]
  · rw [pool_emitOp, patchedOnly.pool] at later
    have here := written.writes.here_eq later
    rw [here_emitJump] at here
    rw [slotsSize_append, slotsSize_fixedSlots, slotsSize, slotsSize, slotsSize_append] at here
    simp only [slotsSize, Slot.size, Slot.draft, Directive.size, Operation.operand,
      Operand.width] at here
    rw [slotsSize_consequentCode]
    omega

theorem ifStatement_succ (enough : 16 * s.tokens.length + 8 ≤ fuel + 1)
    (done : (Compiler.ifStatement (fuel + 1) s).diagnostics = #[]) :
    ∃ tree, Reader.ifRest (fuel + 1) s.created s.stream =
        some (tree, (Compiler.ifStatement (fuel + 1) s).created,
          (Compiler.ifStatement (fuel + 1) s).stream) ∧
      Declares s (Compiler.ifStatement (fuel + 1) s) []
        (fun pool => tree.code pool s.unit s.scope s.site s.here) tree.functions := by
  rw [Compiler.ifStatement] at done ⊢
  rw [Reader.ifRest]
  simp only [] at done ⊢
  generalize testEq : (expression fuel s).consume .colon .expectColonAfterCondition = t at done ⊢
  generalize bodyEq : Compiler.statement fuel ((t.emitJump .jumpIfFalse).emitOp .pop) = u at done ⊢
  generalize joinedEq : ((u.emitJump .jump).patchJump (t.here + 1)).emitOp .pop = v at done ⊢
  generalize elseEq : (if v.check .else then
    Compiler.statement fuel (v.advance.consume .colon .expectColonAfterElse) else v) = w at done ⊢
  have cleanElse : w.diagnostics = #[] := (reports_patchJump _ _).clean done
  have cleanJoined : v.diagnostics = #[] := by
    rw [← elseEq] at cleanElse
    split at cleanElse
    · exact ((reports_advance _).trans
        ((reports_consume _ _ _).trans ((statementReports fuel).statement _))).clean cleanElse
    · exact cleanElse
  have reportsJoined : Reports t v := by
    rw [← joinedEq, ← bodyEq]
    exact ((((Reports.refl _).emitJump .jumpIfFalse).emitOp .pop).trans
      ((statementReports fuel).statement _)).emitJump .jump |>.trans
        (reports_patchJump _ _) |>.emitOp .pop
  have cleanTest : ((expression fuel s).consume .colon .expectColonAfterCondition).diagnostics
      = #[] := by
    rw [testEq]
    exact reportsJoined.clean cleanJoined
  obtain ⟨c, readTest, stageTest, shorterTest⟩ := ready.expressionThen shape.room (by omega)
    (by decide) cleanTest
  rw [testEq] at readTest stageTest shorterTest
  obtain ⟨s₁, readThen, shorterThen, upToElse, hereThen⟩ := ih.consequent shape
    (.of_stage stageTest) (by omega) bodyEq joinedEq cleanJoined
  obtain ⟨s₂, readElse, alternative⟩ := ih.else_clause upToElse.ready (shape.of_advance_nil upToElse)
    upToElse.positive (by omega) elseEq cleanElse c s₁
  have grown := alternative.writes.grown
  have rigid : ∀ pool, w.pool.Grows pool →
      consequentCode s c s₁ pool = consequentCode s c s₁ w.pool := by
    intro pool later
    have atPool := upToElse.writes.rigid (grown.trans later)
    have atEnd := upToElse.writes.rigid grown
    exact List.append_cancel_right (atPool.trans atEnd.symm)
  have whole : Advance s w [] (fun pool => consequentCode s c s₁ pool ++
      .fixed ⟨.jump, Slot.unset⟩ :: (.fixed ⟨.pop, 0⟩ :: s₂.code pool s.unit s.scope s.site
        (s.here + slotsSize (consequentCode s c s₁ pool) + 4))) (s₁.functions ++ s₂.functions) := by
    refine (upToElse.then_statement shape.nonempty alternative).congr fun pool _ => ?_
    rw [slotsSize_append, ← Nat.add_assoc, List.append_assoc]
    rfl
  have final := whole.patch rfl rigid (by rw [hereThen _ grown]) done
  refine ⟨.ifElse c s₁ s₂, ?_, final.congr fun pool _ => ?_, final.room_nil shape, ?_⟩
  · rw [readTest]
    simp only [Option.bind_eq_bind, Option.bind_some, readThen]
    rw [stream_patchJump, created_patchJump, ← readElse]
    rfl
  · have distance : ∀ slots, slotsSize (.fixed ⟨.pop, 0⟩ :: slots) = slotsSize slots + 1 :=
      fun slots => Nat.add_comm _ _
    rw [Statement.code, slotsSize_consequentCode, consequentCode]
    simp only [distance, fixedSlots_append, List.append_assoc, ← Nat.add_assoc]
    rfl
  · rw [SameInput.of_stream (stream_patchJump _ _)]
    have fewer := alternative.fewer
    omega

omit ready in
theorem loop_body {t u : Compiler} (c step : Option Expression) {start : Nat}
    {exit : Option Nat} (headed : Headed s t c step start exit)
    (enough : 16 * t.tokens.length + 8 ≤ fuel)
    (body : Compiler.statement fuel (t.pushLoop start) = u) (done : u.diagnostics = #[]) :
    ∃ tree, Reader.statement fuel s.created t.stream = some (tree, u.created, u.stream) ∧
      u.tokens.length < t.tokens.length ∧ t.pool.Grows u.pool ∧
      Advance (s.pushLoop start) u [] (fun pool => fixedSlots (testCode pool s.scope Slot.unset c) ++
        roundCode s c step start tree pool) tree.functions := by
  subst body
  have opened := headed.advance
  have here := opened.writes.here_eq (.refl _)
  rw [slotsSize_fixedSlots, codeSize_append, codeSize_testCode _ s.scope Slot.unset 0] at here
  have behind : start ≤ t.here := by
    rw [headed.again _ (.refl _), here, ← Nat.add_assoc]
    exact stepStart_le _ _ (Nat.le_add_right _ _) step
  have entered := opened.pushLoop start
  obtain ⟨tree, read, declares⟩ := ih.statement entered.ready
    ((shape.of_advance_nil opened).pushLoop behind) enough done
  rw [entered.still rfl] at read
  have whole := entered.then_statement shape.nonempty declares.toAdvance
  rw [shape.site_pushLoop] at whole
  refine ⟨tree, read, declares.shorter, declares.writes.grown, whole.congr fun pool _ => ?_⟩
  rw [slotsSize_fixedSlots, codeSize_append, codeSize_testCode _ s.scope Slot.unset 0,
    ← Nat.add_assoc, fixedSlots_append, List.append_assoc]
  rfl

omit ready in
theorem loop_rest {t u : Compiler} (c step : Option Expression) (start : Nat) (exit : Option Nat)
    (headed : Headed s t c step start exit)
    (enough : 16 * t.tokens.length + 8 ≤ fuel)
    (body : Compiler.statement fuel (t.pushLoop start) = u)
    (done : (closeTest exit (u.emitLoop start)).popLoop.diagnostics = #[]) :
    ∃ tree, Reader.statement fuel s.created t.stream =
        some (tree, (closeTest exit (u.emitLoop start)).popLoop.created,
          (closeTest exit (u.emitLoop start)).popLoop.stream) ∧
      Advance s (closeTest exit (u.emitLoop start)).popLoop []
        (fun pool => fixedSlots (loopCode pool s.scope s.here c step
          fun site p => tree.code pool s.unit s.scope (some site) p)) tree.functions ∧
      (closeTest exit (u.emitLoop start)).popLoop.tokens.length < t.tokens.length := by
  have cleanEnd := (reports_popLoop _).clean done
  have cleanBack := (reports_closeTest _ _).clean cleanEnd
  obtain ⟨tree, read, shorter, grownBody, written⟩ := ih.loop_body shape c step headed
    enough body ((reports_emitLoop _ _).clean cleanBack)
  have back : ∀ pool, u.pool.Grows pool → u.here = s.here + codeSize (testCode pool s.scope 0 c) +
      slotsSize (roundCode s c step start tree pool) := by
    intro pool grown
    have here := written.writes.here_eq grown
    rw [slotsSize_append, slotsSize_fixedSlots, codeSize_testCode _ s.scope Slot.unset 0,
      ← Nat.add_assoc] at here
    exact here
  have behind : start ≤ u.here := by
    rw [headed.again _ grownBody, back _ (.refl _), roundCode, slotsSize_append, slotsSize_fixedSlots,
      ← Nat.add_assoc]
    exact Nat.le_add_right_of_le (stepStart_le _ _ (Nat.le_add_right _ _) step)
  have looped : Advance (s.pushLoop start) (u.emitLoop start) [] (fun pool =>
      fixedSlots (testCode pool s.scope Slot.unset c) ++ (roundCode s c step start tree pool ++
        fixedSlots [loopBack u.here start])) tree.functions := by
    refine (written.emitLoop behind cleanBack).congr fun pool _ => ?_
    rw [List.append_assoc]
  -- The test was written before the body; what the body adds to the pool does not change it.
  have grownBack : t.pool.Grows (u.emitLoop start).pool := by
    rw [pool_emitLoop]
    exact grownBody
  obtain ⟨rigidBack, exitsBack⟩ := headed.later grownBack
  obtain ⟨closed, hereEnd⟩ := looped.closeTest rigidBack exitsBack cleanEnd
  obtain ⟨left, stream⟩ := closed.popLoop done
  rw [stream_closeTest, stream_emitLoop] at stream
  refine ⟨tree, ?_, left.congr fun pool grown => ?_, ?_⟩
  · rw [stream, created_popLoop, created_closeTest, created_emitLoop]
    exact read
  · rw [pool_popLoop, pool_closeTest, pool_emitLoop] at grown
    have distance : slotsSize (roundCode s c step start tree pool ++
        fixedSlots [loopBack u.here start]) + 1 = slotsSize (roundCode s c step start tree pool) + 4 := by
      rw [slotsSize_append, slotsSize_fixedSlots]
      rfl
    rw [hereEnd, here_emitLoop, distance, back pool grown, loopCode, roundCode]
    simp only [← headed.again pool (grownBody.trans grown), resolveFrom_append, resolveFrom_fixedSlots,
      slotsSize_fixedSlots, slotsSize_append, ← Nat.add_assoc]
    rw [codeSize_testCode pool s.scope (_ + 4) 0]
    simp only [List.append_assoc]
    rfl
  · rw [SameInput.of_stream stream]
    exact shorter

theorem whileStatement_succ (enough : 16 * s.tokens.length + 8 ≤ fuel + 1)
    (done : (Compiler.whileStatement (fuel + 1) s).diagnostics = #[]) :
    ∃ tree, Reader.whileRest (fuel + 1) s.created s.stream =
        some (tree, (Compiler.whileStatement (fuel + 1) s).created,
          (Compiler.whileStatement (fuel + 1) s).stream) ∧
      Declares s (Compiler.whileStatement (fuel + 1) s) []
        (fun pool => tree.code pool s.unit s.scope s.site s.here) tree.functions := by
  rw [Compiler.whileStatement] at done ⊢
  rw [Reader.whileRest]
  simp only [] at done ⊢
  have cleanExit := ((Reports.refl _).emitOp .pop |>.trans (reports_popLoop _)).clean done
  have cleanBody := ((reports_emitLoop _ _).trans (reports_patchJump _ _)).clean cleanExit
  have cleanTest := (((((Reports.refl _).emitJump .jumpIfFalse).emitOp .pop).pushLoop s.here).trans
    ((statementReports fuel).statement _)).clean cleanBody
  obtain ⟨c, readTest, stage, shorter⟩ := ready.expressionThen shape.room (by omega) (by decide)
    cleanTest
  generalize (expression fuel s).consume .colon .expectColonAfterCondition = t at *
  have here := stage.writes.here_eq (.refl _)
  rw [slotsSize_fixedSlots] at here
  have headed : Headed s ((t.emitJump .jumpIfFalse).emitOp .pop) (some c) none s.here
      (some (t.here + 1)) := by
    refine ⟨?_, fun _ _ => rfl, fun pool grown => ?_, by rw [here]; rfl⟩
    · refine (((Advance.of_stage stage).emitJump .jumpIfFalse rfl).emitOp .pop rfl).congr
        fun pool _ => ?_
      rw [stepCode, List.append_nil, testCode, fixedSlots_append, List.append_assoc]
      rfl
    · have grownTest : t.pool.Grows pool := grown
      have same := congrArg (List.map Slot.draft) (stage.writes.rigid grownTest)
      rw [map_draft_fixedSlots, map_draft_fixedSlots] at same
      rw [testCode, testCode, same]
      rfl
  have fewer : ((t.emitJump .jumpIfFalse).emitOp .pop).tokens.length = t.tokens.length := rfl
  obtain ⟨tree, read, advance, shorterBody⟩ := ih.loop_rest shape (some c) none s.here
    (some (t.here + 1)) headed (by omega) rfl done
  rw [stream_emitOp, stream_emitJump] at read
  refine ⟨.while c tree, ?_, advance.congr fun pool _ => ?_, advance.room_nil shape, ?_⟩
  · rw [readTest]
    simp only [Option.bind_eq_bind, Option.bind_some, read]
    rfl
  · rw [Statement.code]
  · exact Nat.lt_trans shorterBody (by rw [fewer]; exact shorter)

theorem forStatement_succ (enough : 16 * s.tokens.length + 8 ≤ fuel + 1)
    (done : (Compiler.forStatement (fuel + 1) s).diagnostics = #[]) :
    ∃ tree, Reader.forRest (fuel + 1) s.created s.stream =
        some (tree, (Compiler.forStatement (fuel + 1) s).created,
          (Compiler.forStatement (fuel + 1) s).stream) ∧
      Declares s (Compiler.forStatement (fuel + 1) s) []
        (fun pool => tree.code pool s.unit s.scope s.site s.here) tree.functions := by
  have unfolded : Compiler.forStatement (fuel + 1) s =
      (closeTest (forCondition fuel (forInitializer fuel s.beginScope)).2
        ((Compiler.statement fuel ((forIncrement fuel (forInitializer fuel s.beginScope).here
          (forCondition fuel (forInitializer fuel s.beginScope)).1).1.pushLoop
            (forIncrement fuel (forInitializer fuel s.beginScope).here
              (forCondition fuel (forInitializer fuel s.beginScope)).1).2)).emitLoop
            (forIncrement fuel (forInitializer fuel s.beginScope).here
              (forCondition fuel (forInitializer fuel s.beginScope)).1).2)).popLoop.endScope := by
    rw [Compiler.forStatement]
    rfl
  rw [unfolded] at done ⊢
  rw [Reader.forRest]
  have cleanLoop := (reports_endScope _).clean done
  have cleanIncrement := (((Reports.refl _).pushLoop _).trans
    (((statementReports fuel).statement _).trans ((reports_emitLoop _ _).trans
      ((reports_closeTest _ _).trans (reports_popLoop _))))).clean cleanLoop
  have cleanFirst := ((reports_forCondition _ _).trans (reports_forIncrement _ _ _)).clean
    cleanIncrement
  have readyInner : Ready s.beginScope :=
    ⟨ready.clean, ready.audible, ready.closed, ready.ordered, ready.positive⟩
  have shapeInner : Scoped s.beginScope := shape.beginScope
  obtain ⟨first, readFirst, declares⟩ := readyInner.forInitializer shapeInner
    (show 16 * s.tokens.length + 2 ≤ fuel by omega) (Nat.succ_pos _) cleanFirst
  have shapeFirst := declares.shape shapeInner
  have scopeFirst := declares.scope_eq shapeInner
  generalize forInitializer fuel s.beginScope = t at *
  have shorterFirst := declares.shorter
  have tokensInner : s.beginScope.tokens.length = s.tokens.length := rfl
  generalize testedEq : forCondition fuel t = tested at *
  obtain ⟨u, exit⟩ := tested
  dsimp only at *
  generalize steppedEq : forIncrement fuel t.here u = stepped at *
  obtain ⟨v, start⟩ := stepped
  dsimp only at *
  obtain ⟨c, step, readTest, readStep, shorterClauses, headed⟩ := declares.ready.forClauses
    shapeFirst.room (by omega) testedEq steppedEq cleanIncrement
  obtain ⟨tree, read, advance, shorterBody⟩ := ih.loop_rest shapeFirst c step start exit headed
    (by omega) rfl cleanLoop
  have whole := declares.toAdvance.trans advance
  generalize (closeTest exit ((Compiler.statement fuel (v.pushLoop start)).emitLoop start)).popLoop
    = w at *
  obtain ⟨left, stream⟩ := Advance.endScope shape whole (by
    intro l member
    obtain ⟨name, -, rfl⟩ := List.mem_map.mp member
    rfl) (advance.room_nil shapeFirst)
  refine ⟨.for first c step tree, ?_, left.congr fun pool grown => ?_, left.room_nil shape, ?_⟩
  · have readInner : Reader.initializer fuel s.stream = some (first, t.stream) := readFirst
    have createdT : t.created = s.created := declares.still rfl
    rw [readInner, stream, created_endScope]
    simp only [Option.bind_eq_bind, Option.bind_some, readTest, readStep]
    rw [← createdT, read]
    rfl
  · rw [pool_endScope] at grown
    have hereFirst := declares.writes.here_eq (advance.writes.grown.trans grown)
    have unitFirst : t.unit = s.unit := declares.unit_eq
    rw [slotsSize_fixedSlots] at hereFirst
    rw [hereFirst, unitFirst, scopeFirst, Statement.code, fixedSlots_append, fixedSlots_append,
      List.nil_append, fresh, List.length_map]
    rfl
  · rw [SameInput.of_stream stream]
    omega

theorem block_statement (more : s.current.kind ≠ .eof)
    (enough : 16 * s.tokens.length + 7 ≤ fuel)
    (done : (Compiler.block fuel s.advance.beginScope).endScope.diagnostics = #[]) :
    ∃ tree, (do
        let (body, count, ts) ← Reader.block fuel s.created s.tokens
        some (Statement.block body, count, ts)) =
          some (tree, (Compiler.block fuel s.advance.beginScope).endScope.created,
            (Compiler.block fuel s.advance.beginScope).endScope.stream) ∧
      Declares s (Compiler.block fuel s.advance.beginScope).endScope []
        (fun pool => tree.code pool s.unit s.scope s.site s.here) tree.functions := by
  have cleanBlock := (reports_endScope _).clean done
  have cleanAdvance : s.advance.diagnostics = #[] :=
    (((Reports.refl _).beginScope).trans ((statementReports fuel).block _)).clean cleanBlock
  obtain ⟨passed, stream, shorter⟩ := ready.advanced more cleanAdvance
  have shapePassed := shape.of_advance_nil passed
  have readyInner : Ready s.advance.beginScope :=
    ⟨passed.ready.clean, passed.ready.audible, passed.ready.closed, passed.ready.ordered,
      passed.ready.positive⟩
  have deep : Deep s.advance.beginScope := fun loop member =>
    Nat.lt_succ_of_le (shapePassed.inside loop member)
  obtain ⟨body, read, declares⟩ := ih.block readyInner shapePassed.beginScope deep
    (show 16 * s.advance.tokens.length + 10 ≤ fuel by omega) cleanBlock
  obtain ⟨left, streamLeft⟩ := Advance.endScope shapePassed declares.toAdvance (by
    intro l member
    obtain ⟨name, -, rfl⟩ := List.mem_map.mp member
    rfl) declares.room
  have shorterBody : (Compiler.block fuel s.advance.beginScope).tokens.length <
    s.advance.tokens.length := declares.shorter
  have place := passed.samePlace shape
  have whole := passed.trans left
  refine ⟨.block body, ?_, ⟨whole.congr fun pool _ => ?_, whole.room_nil shape, ?_⟩⟩
  · have readInner : Reader.block fuel s.advance.created s.advance.stream =
        some (body, (Compiler.block fuel s.advance.beginScope).created,
          (Compiler.block fuel s.advance.beginScope).stream) := read
    rw [← stream, ← passed.still rfl, readInner, streamLeft, created_endScope]
    rfl
  · have inScope : (s.advance.beginScope.draft.depth == 0) = false := by simp [Compiler.beginScope]
    have inner : codeOfBody pool s.advance.beginScope.unit false s.advance.beginScope.scope
        s.advance.beginScope.site s.advance.beginScope.here body =
          codeOfBody pool s.unit false s.scope s.site s.here body := by
      rw [← place.unit, ← place.scope, ← place.site, ← place.here]
      rfl
    rw [inScope, inner, Statement.code, fresh, List.length_map]
    rfl
  · rw [SameInput.of_stream streamLeft]
    omega

theorem statement_succ (enough : 16 * s.tokens.length + 8 ≤ fuel + 1)
    (done : (Compiler.statement (fuel + 1) s).diagnostics = #[]) :
    ∃ tree, Reader.statement (fuel + 1) s.created s.stream =
        some (tree, (Compiler.statement (fuel + 1) s).created,
          (Compiler.statement (fuel + 1) s).stream) ∧
      Declares s (Compiler.statement (fuel + 1) s) []
        (fun pool => tree.code pool s.unit s.scope s.site s.here) tree.functions := by
  have reports := statementReports fuel
  rw [Compiler.statement] at done ⊢
  split at done
  · rename_i kind
    obtain ⟨passed, stream, shorter⟩ := ready.advanced (by rw [kind]; decide)
      ((reports_printStatement _ _).clean done)
    obtain ⟨e, read, declares⟩ := passed.ready.valueStatement (shape.of_advance_nil passed)
      (by omega) rfl done
    refine ⟨.print e, ?_, passed.then_tree shape (declares.congr fun pool _ => ?_)⟩
    · rw [Reader.statement, kindAt_stream, kind]
      simp only [drop_stream]
      rw [← stream, read, ← passed.still rfl, ← declares.still rfl]
      rfl
    · rw [Statement.code]
  · rename_i kind
    obtain ⟨passed, stream, shorter⟩ := ready.advanced (by rw [kind]; decide)
      ((reports.ifStatement _).clean done)
    obtain ⟨tree, read, declares⟩ := ih.ifStatement passed.ready (shape.of_advance_nil passed)
      (by omega) done
    refine ⟨tree, ?_, passed.then_tree shape declares⟩
    rw [Reader.statement, kindAt_stream, kind]
    simp only [drop_stream]
    rw [← stream, ← passed.still rfl, read]
  · rename_i kind
    obtain ⟨passed, stream, shorter⟩ := ready.advanced (by rw [kind]; decide)
      ((reports.whileStatement _).clean done)
    obtain ⟨tree, read, declares⟩ := ih.whileStatement passed.ready (shape.of_advance_nil passed)
      (by omega) done
    refine ⟨tree, ?_, passed.then_tree shape declares⟩
    rw [Reader.statement, kindAt_stream, kind]
    simp only [drop_stream]
    rw [← stream, ← passed.still rfl, read]
  · rename_i kind
    obtain ⟨passed, stream, shorter⟩ := ready.advanced (by rw [kind]; decide)
      ((reports.forStatement _).clean done)
    obtain ⟨tree, read, declares⟩ := ih.forStatement passed.ready (shape.of_advance_nil passed)
      (by omega) done
    refine ⟨tree, ?_, passed.then_tree shape declares⟩
    rw [Reader.statement, kindAt_stream, kind]
    simp only [drop_stream]
    rw [← stream, ← passed.still rfl, read]
  · rename_i kind
    obtain ⟨passed, stream, shorter⟩ := ready.advanced (by rw [kind]; decide)
      ((reports_breakStatement _).clean done)
    obtain ⟨expected, declares⟩ := passed.ready.breakStatement passed.positive
      (shape.of_advance_nil passed) done
    refine ⟨.break, ?_, passed.then_tree shape declares⟩
    rw [Reader.statement, kindAt_stream, kind]
    simp only [drop_stream]
    rw [← stream, expected, ← passed.still rfl, ← declares.still rfl]
    rfl
  · rename_i kind
    obtain ⟨passed, stream, shorter⟩ := ready.advanced (by rw [kind]; decide)
      ((reports_continueStatement _).clean done)
    obtain ⟨expected, declares⟩ := passed.ready.continueStatement passed.positive
      (shape.of_advance_nil passed) done
    refine ⟨.continue, ?_, passed.then_tree shape declares⟩
    rw [Reader.statement, kindAt_stream, kind]
    simp only [drop_stream]
    rw [← stream, expected, ← passed.still rfl, ← declares.still rfl]
    rfl
  · rename_i kind
    obtain ⟨passed, stream, shorter⟩ := ready.advanced (by rw [kind]; decide)
      ((reports_returnStatement _ _).clean done)
    obtain ⟨value, read, declares⟩ := passed.ready.returnStatement (shape.of_advance_nil passed)
      (by omega) done
    refine ⟨.return value, ?_, passed.then_tree shape declares⟩
    rw [Reader.statement, kindAt_stream, kind]
    simp only [drop_stream]
    rw [← stream, read, ← passed.still rfl, ← declares.still rfl]
    rfl
  · rename_i kind
    obtain ⟨tree, read, declares⟩ := ih.block_statement ready shape (by rw [kind]; decide)
      (by omega) done
    refine ⟨tree, ?_, declares⟩
    rw [Reader.statement, kindAt_stream, kind]
    exact read
  · obtain ⟨e, read, declares⟩ := ready.valueStatement shape (by omega) rfl done
    refine ⟨.expression e, ?_, declares.congr fun pool _ => ?_⟩
    · rw [Reader.statement, kindAt_stream]
      split
      all_goals first
        | contradiction
        | (rw [read]
           simp only [Option.bind_eq_bind, Option.bind_some]
           rw [← declares.still rfl]
           rfl)
    · rw [Statement.code]

end StatementReads

theorem statementReads (fuel : Nat) : StatementReads fuel := by
  induction fuel with
  | zero => constructor <;> intros <;> omega
  | succ fuel ih =>
      exact {
        declaration := fun ready shape enough done => ih.declaration_succ ready shape enough done
        functionDeclaration := fun ready positive shape enough done =>
          ih.functionDeclaration_succ ready shape positive enough done
        function := fun ready positive shape enough done =>
          ih.function_succ ready shape positive enough done
        block := fun ready shape deep enough done => ih.block_succ ready shape deep enough done
        statement := fun ready shape enough done => ih.statement_succ ready shape enough done
        ifStatement := fun ready shape enough done => ih.ifStatement_succ ready shape enough done
        whileStatement := fun ready shape enough done =>
          ih.whileStatement_succ ready shape enough done
        forStatement := fun ready shape enough done => ih.forStatement_succ ready shape enough done }

end Reckoner.Compiler
