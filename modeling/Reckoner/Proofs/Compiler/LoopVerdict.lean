import Reckoner.Proofs.Compiler.ClauseVerdict

/-!
Judging loops: the clauses of a `for` loop, and what is done once the body of a loop is complete.
-/

namespace Reckoner.Script

theorem short_resolveFrom {target p : Nat} {slots : List Slot} :
    (∀ d ∈ resolveFrom target p slots, d.Short) ↔ (∀ d ∈ settledOf slots, d.Short) ∧
      ∀ q ∈ exitsFrom p slots, target - q - 2 ≤ Compiler.maxJump := by
  induction slots generalizing p with
  | nil => exact iff_of_true nofun ⟨nofun, nofun⟩
  | cons slot rest ih =>
      cases slot with
      | fixed d =>
          rw [resolveFrom, settledOf, exitsFrom, List.forall_mem_cons, List.forall_mem_cons,
            and_assoc]
          exact and_congr Iff.rfl ih
      | exit =>
          rw [resolveFrom, settledOf, exitsFrom, List.forall_mem_cons, List.forall_mem_cons]
          have one : (Slot.resolve target p .exit).Short ↔
              target - (p + 1) - 2 ≤ Compiler.maxJump := by
            have distance : target - (p + 1) - 2 = target - (p + 3) := by omega
            rw [distance]
            exact ⟨fun short => short (.inl rfl), fun few _ => few⟩
          rw [one]
          exact (and_congr Iff.rfl ih).trans and_left_comm

theorem short_loopBack {p start : Nat} :
    (loopBack p start).Short ↔ p + 3 - start ≤ Compiler.maxJump :=
  ⟨fun short => short (.inr rfl), fun few _ => few⟩

end Reckoner.Script

namespace Reckoner.Compiler

open Script

namespace View

def inner (v : View) : View := { v with depth := v.depth + 1 }

variable {v : View} (settled : v.Settled)

include settled

theorem Settled.inner : v.inner.Settled where
  nonempty := settled.nonempty
  bounded := by
    intro l member
    obtain ⟨d, known, bound⟩ := settled.bounded l member
    exact ⟨d, known, Nat.le_succ_of_le bound⟩
  behind := settled.behind
  inside := fun loop member => Nat.le_succ_of_le (settled.inside loop member)

theorem Settled.deep_inner : v.inner.Deep := fun loop member =>
  Nat.lt_succ_of_le (settled.inside loop member)

theorem Settled.context_inner : v.inner.context = v.context.inner := by
  have none : v.inner.namesHere = [] := by
    rw [namesHere, View.inner, if_neg (Nat.succ_ne_zero v.depth)]
    simp only []
    cases localsEq : v.locals with
    | nil => rfl
    | cons l rest =>
        obtain ⟨d, known, bound⟩ := settled.bounded l (by rw [localsEq]; exact List.mem_cons_self)
        rw [List.takeWhile_cons_of_neg]
        · rfl
        · simpa [Local.isInScope, known] using Nat.lt_succ_of_le bound
  rw [context, none]
  rfl

end View

theorem short_jump_pop {op : Operation} {distance : Nat} (jump : op.operand = .jump) :
    (∀ d ∈ [(⟨op, distance⟩ : Directive), { op := .pop }], d.Short) ↔ distance ≤ maxJump := by
  rw [List.forall_mem_cons, List.forall_mem_singleton, short_jump jump]
  exact and_iff_left (short_of_operand (by decide))

theorem View.Settled.accepts_test {v : View} (settled : v.Settled) (e : Expression) :
    v.Accepts e ↔
      Fits v.entries e.Legal (testCode #[] v.scope 0 (some e)) (e.entries v.scope) := by
  rw [settled.accepts_iff, testCode, fits_short ((short_jump_pop rfl).mpr (Nat.zero_le _))]

namespace Poised

variable {s : Compiler} {v : View} {fuel : Nat} {rest : List Token} (poised : Poised s v)

include poised

theorem beginScope : Poised s.beginScope v.inner :=
  { poised with
    stream := poised.stream
    holds := poised.holds
    depth := congrArg (· + 1) poised.depth }

theorem pushLoop (start : Nat) :
    Poised (s.pushLoop start) { v with loops := ⟨start, v.depth, []⟩ :: v.loops } :=
  { poised with
    stream := poised.stream
    holds := poised.holds
    loops := by
      rw [← poised.loops, ← poised.depth]
      rfl }

theorem patches (breaks : List Nat) :
    Verdict (breaks.foldl Compiler.patchJump s) (∀ q ∈ breaks, v.here - q - 2 ≤ maxJump) v := by
  induction breaks generalizing s with
  | nil => exact (Verdict.of_poised poised).congr (iff_of_true trivial nofun)
  | cons q breaks ih =>
      rw [List.forall_mem_cons]
      exact (poised.patchJump q).and_then (reports_patches breaks _) fun _ behind => ih behind

theorem popLoop {loop : Loop} {outer : List Loop} (loops : v.loops = loop :: outer) :
    Verdict s.popLoop (∀ q ∈ loop.breaks, v.here - q - 2 ≤ maxJump) { v with loops := outer } := by
  rw [Compiler.popLoop, poised.loops, loops]
  have popped : Poised { s with draft := { s.draft with loops := outer } }
      { v with loops := outer } :=
    { poised with stream := poised.stream, holds := poised.holds, loops := rfl }
  exact popped.patches loop.breaks

theorem endScope {w : View} (names : List String) (settled : w.Settled)
    (depth : v.depth = w.depth + 1)
    (locals : v.locals = (names.map fun name => ⟨name, some (w.depth + 1)⟩) ++ w.locals) :
    Poised s.endScope { v with
      depth := w.depth
      locals := w.locals
      here := v.here + codeSize (popCode names.length) } := by
  have outer : v.depth - 1 = w.depth := by omega
  have kept : v.locals.dropWhile (Local.isDeeper w.depth) = w.locals := by
    rw [locals, List.dropWhile_append_of_pos]
    · cases localsEq : w.locals with
      | nil => rfl
      | cons l rest =>
          obtain ⟨d, known, bound⟩ := settled.bounded l (by rw [localsEq]; exact List.mem_cons_self)
          rw [List.dropWhile_cons_of_neg]
          simp only [Local.isDeeper, known, Option.any_some, decide_eq_true_eq]
          omega
    · intro l member
      obtain ⟨name, -, rfl⟩ := List.mem_map.mp member
      simp [Local.isDeeper]
  have popped : v.locals.length - w.locals.length = names.length := by
    rw [locals, List.length_append, List.length_map]
    omega
  have room : w.locals.length ≤ maxLocals := by
    have room := poised.room
    rw [locals, List.length_append] at room
    omega
  have closed : Poised (s.reframe w.locals w.depth s.draft.loops)
      { v with depth := w.depth, locals := w.locals } :=
    { poised with
      stream := poised.stream
      holds := poised.holds
      loops := poised.loops
      depth := rfl
      locals := rfl
      room := room }
  rw [Compiler.endScope]
  simp only [poised.depth, poised.locals, outer, kept, popped]
  exact closed.emitPops names.length

/-! Clauses of a `for` loop -/

theorem forInitializer (settled : v.Settled) (inside : v.depth ≠ 0) {first : Initializer}
    (read : Reader.initializer fuel v.tokens = some (first, rest)) :
    Verdict (forInitializer fuel s)
      (Fits v.entries (first.Legal v.context) (first.code #[] v.scope) (first.entries v.scope))
      (v.pass rest v.created (first.entries v.scope) (fixedSlots (first.code #[] v.scope))
        first.names) := by
  rw [Compiler.forInitializer, poised.check_eq, poised.check_eq]
  rw [Reader.initializer] at read
  split at read
  · rename_i here
    obtain ⟨t, us, ahead, kind⟩ := tokens_of_kind here (by decide)
    cases read
    rw [if_pos here, ahead]
    have passed := (poised.advance ahead (by rw [kind]; decide)).1
    refine ((Verdict.of_poised passed).congr ?_).congr_view ?_
    · exact iff_of_true trivial ⟨trivial, List.forall_mem_nil _, poised.few⟩
    · rw [View.pass, exitsFrom_fixedSlots, addBreaks_nil]
      rfl
  · rename_i notMissing
    rw [if_neg notMissing]
    split at read
    · rename_i here
      obtain ⟨t, us, ahead, kind⟩ := tokens_of_kind here (by decide)
      simp only [Option.bind_eq_bind, Option.bind_eq_some_iff, Prod.exists] at read
      obtain ⟨name, value, rest', declared, last⟩ := read
      cases last
      rw [if_pos here]
      have passed := (poised.advance ahead (by rw [kind]; decide)).1
      rw [ahead] at declared
      have judged := Poised.varDeclaration passed
        (settled.reading _) declared
      have inScope : (v.depth == 0) = false := beq_false_of_ne inside
      simp only [inScope, declaredEntries, defineCode, Bool.false_eq_true, if_false,
        List.nil_append, List.append_nil] at judged
      exact judged
    · rename_i notVar
      rw [if_neg notVar]
      simp only [Option.bind_eq_bind, Option.bind_eq_some_iff, Prod.exists] at read
      obtain ⟨e, rest', first, last⟩ := read
      cases last
      refine (poised.valueStatement .expectSemicolonAfterExpression .pop rfl first).congr ?_
      rw [settled.accepts_iff]
      exact (fits_short (short_singleton (short_of_operand (by decide)))).symm

theorem forCondition (settled : v.Settled) {test : Option Expression}
    (read : Reader.clause fuel .semicolon v.tokens = some (test, rest)) :
    Verdict (forCondition fuel s).1
        (Fits v.entries (∀ e ∈ test, e.Legal) (testCode #[] v.scope 0 test)
          (entriesOfOptional v.scope test))
        (v.after rest (entriesOfOptional v.scope test) (codeSize (testCode #[] v.scope 0 test))) ∧
      ((Compiler.forCondition fuel s).1.diagnostics = #[] → (Compiler.forCondition fuel s).2 =
        test.map fun e => v.here + codeSize (e.code #[] v.scope) + 1) := by
  rw [Compiler.forCondition]
  cases clauseRead (by decide) read with
  | @missing t rest ahead here =>
      have bare : s.check .semicolon = true := by
        rw [poised.check_eq, ahead]
        exact beq_iff_eq.mpr here
      rw [if_pos bare]
      have passed := (poised.advance ahead (by rw [here]; decide)).1
      exact ⟨(Verdict.of_poised passed).congr (iff_of_true trivial ⟨nofun, nofun, poised.few⟩),
        fun _ => rfl⟩
  | @present e rest other first =>
      have full : ¬ s.check .semicolon = true := by
        rw [poised.check_eq]
        exact other
      rw [if_neg full]
      have judged := poised.expressionThen .expectSemicolonAfterCondition (by decide) first
      generalize (expression fuel s).consume .semicolon .expectSemicolonAfterCondition = t
        at judged
      constructor
      · refine ((judged.step (((Reports.refl t).emitJump .jumpIfFalse).emitOp .pop)
          fun behind => (behind.emitJump .jumpIfFalse).emitOp .pop).congr ?_).congr_view ?_
        · rw [settled.accepts_test]
          exact fits_congr (by simp)
        · rw [testCode, codeSize_append]
          rfl
      · intro done
        have clean : t.diagnostics = #[] := done
        exact congrArg (fun here => some (here + 1)) (judged.poised clean).here

theorem forIncrement (settled : v.Settled) {test : Nat} (before : test ≤ v.here)
    {step : Option Expression}
    (read : Reader.clause fuel .colon v.tokens = some (step, rest)) :
    Verdict (forIncrement fuel test s).1
        (Fits v.entries (∀ e ∈ step, e.Legal) (stepCode #[] v.scope v.here test step)
          (entriesOfOptional v.scope step))
        (v.after rest (entriesOfOptional v.scope step)
          (codeSize (stepCode #[] v.scope v.here test step))) ∧
      (Compiler.forIncrement fuel test s).2 = stepStart v.here test step := by
  rw [Compiler.forIncrement]
  cases clauseRead (by decide) read with
  | @missing t rest ahead here =>
      have bare : s.check .colon = true := by
        rw [poised.check_eq, ahead]
        exact beq_iff_eq.mpr here
      rw [if_pos bare]
      have passed := (poised.advance ahead (by rw [here]; decide)).1
      exact ⟨(Verdict.of_poised passed).congr (iff_of_true trivial ⟨nofun, nofun, poised.few⟩), rfl⟩
  | @present e rest other first =>
      have full : ¬ s.check .colon = true := by
        rw [poised.check_eq]
        exact other
      rw [if_neg full]
      obtain ⟨us, value, closing⟩ := expressionThen_eq_some first
      have jumped := poised.emitJump .jump
      refine ⟨?_, jumped.here⟩
      have size : codeSize (stepCode #[] v.scope v.here test (some e)) =
          codeSize (e.code #[] v.scope) + 7 := by
        simp only [stepCode, codeSize, codeSize_append]
        simp only [loopBack, Directive.size, Operation.operand, Operand.width]
        omega
      have popped := ((expressionVerdicts fuel).expression jumped value).step
        ((Reports.refl _).emitOp .pop) fun behind => behind.emitOp .pop
      have judged := popped.step (reports_consume _ .colon .expectColonAfterClauses)
        fun behind => (behind.consume _ (by decide) closing).1
      simp only []
      generalize ((expression fuel (s.emitJump .jump)).emitOp .pop).consume .colon
        .expectColonAfterClauses = t at judged
      have looped := judged.and_then (reports_emitLoop t test)
        fun _ behind => behind.emitLoop (Nat.le_trans before (by
          simp only [View.overOne, View.after]
          omega))
      refine ((looped.and_then (reports_patchJump _ _)
        fun _ behind => behind.patchJump _).congr ?_).congr_view ?_
      · rw [stepCode, fits_cons, short_jump rfl, poised.here]
        have split : Fits v.entries (∀ x ∈ some e, x.Legal) (e.code #[] v.scope ++
            [{ op := .pop }, loopBack (v.here + codeSize (e.code #[] v.scope) + 4) test])
            (entriesOfOptional v.scope (some e)) ↔ v.Accepts e ∧
              v.here + codeSize (e.code #[] v.scope) + 7 - test ≤ maxJump := by
          rw [fits_behind, settled.accepts_iff, List.forall_mem_cons, List.forall_mem_singleton,
            and_iff_right (short_of_operand (by decide)), short_loopBack]
          exact and_congr (fits_congr (by simp)) Iff.rfl
        rw [split]
        have accepts : { v with here := v.here + 3 }.Accepts e ↔ v.Accepts e := Iff.rfl
        rw [accepts]
        simp only [View.overOne, View.after, View.scope]
        constructor
        · rintro ⟨⟨value, back⟩, across⟩
          exact ⟨by omega, value, by omega⟩
        · rintro ⟨across, value, back⟩
          exact ⟨⟨value, by omega⟩, by omega⟩
      · refine @View.after_eq v _ (entriesOfOptional v.scope (some e)) _ _ ?_
        rw [size]
        simp only [View.overOne, View.after, View.scope]
        omega

end Poised

end Reckoner.Compiler
