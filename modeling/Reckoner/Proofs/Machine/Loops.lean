import Reckoner.Proofs.Machine.Expressions

/-!
Loops. However a statement is left, the call is at a known place and has nothing above its locals; the
clauses of a loop, laid out in another order than they run in, go as its rounds do.
-/

namespace Reckoner

open Script

namespace Call

def GoesBack (c : Call) (target : Nat) (env : Environment) (m : Machine) : Prop :=
  ∃ p, c.routine.Has p (loopBack p target) ∧ target ≤ p + 3 ∧ c.At p env [] m

/-- Where a statement leads, the locals it leaves by a jump out of a loop being dropped. The locals are
those of the scope if it runs to its end. -/
def Leaves (c : Call) (loop : Option LoopSite) (target p : Nat) (names : List String)
    (kept : List String → Prop) : Completion → Environment → Machine → Prop
  | .normal, env, m => env.names = names ∧ c.At p env [] m
  | .broke, env, m => kept env.names ∧ ∃ site ∈ loop, c.At target (env.keep site.height) [] m
  | .continued, env, m =>
    kept env.names ∧ ∃ site ∈ loop, c.GoesBack site.start (env.keep site.height) m
  | .returned v, env, m => c.Returns v env m

theorem GoesBack.back {c : Call} {target : Nat} {env : Environment} {m : Machine} {host : Host}
    (serves : host.Serves) (goes : c.GoesBack target env m) :
    ∃ last, Machine.Steps host 1 m last ∧ c.At target env [] last := by
  obtain ⟨p, has, before, start⟩ := goes
  exact start.loopBack serves has before

theorem Leaves.outside {c : Call} {loop : Option LoopSite} {target other p : Nat}
    {names : List String} {kept better : List String → Prop} {completion : Completion}
    {env : Environment} {m : Machine} (leaves : c.Leaves none other p names kept completion env m) :
    c.Leaves loop target p names better completion env m := by
  cases completion with
  | normal => exact leaves
  | broke | continued =>
      obtain ⟨-, site, member, -⟩ := leaves
      exact absurd member nofun
  | returned v => exact leaves

end Call

section

variable {c : Call} {p : Nat} {env : Environment} {scope : List String} {m : Machine} {host : Host}
  {least : Nat} {library : Library} {level : Level} (calls : level.Calls library host least)

include calls

theorem Script.evalOptional_follows {value : Option Expression} {temps : List Value}
    (start : c.At p env temps m) (names : env.names = scope)
    (holds : c.routine.Holds p (codeOfOptional c.routine.constants scope value)) :
    m.Tracks host (least + 1)
      (c.Yields (p + codeSize (codeOfOptional c.routine.constants scope value)) scope temps)
      (evalOptional library level c.routine value env) := by
  cases value with
  | some e => exact e.follows calls start names holds
  | none =>
      subst names
      exact start.truth (b := false) calls.serves holds.1

theorem Script.perform_follows {e : Expression} (start : c.At p env [] m) (names : env.names = scope)
    (holds : c.routine.Holds p (e.code c.routine.constants scope ++ [{ op := .pop }])) :
    m.Tracks host (least + 1)
      (fun _ => c.Passes (p + codeSize (e.code c.routine.constants scope) + 1) scope)
      (perform library level c.routine (some e) env) := by
  rw [Routine.holds_append] at holds
  refine (e.follows calls start names holds.1).bind fun v after last known => ?_
  obtain ⟨popped, steps, lower⟩ := known.2.pop calls.serves holds.2.1
  exact .before steps (Nat.le_add_left ..) (.pure ⟨known.1, lower⟩)

theorem Script.test_follows {condition : Option Expression} {n : Nat} (start : c.At p env [] m)
    (names : env.names = scope)
    (holds : c.routine.Holds p (testCode c.routine.constants scope (n + 1) condition)) :
    m.Tracks host (least + 1)
      (fun passed after last => after.names = scope ∧
        if passed then c.At (p + codeSize (testCode c.routine.constants scope 0 condition)) after [] last
        else condition.isSome ∧ ∃ v,
          c.At (p + codeSize (testCode c.routine.constants scope 0 condition) + n) after [v] last)
      (test library level c.routine condition env) := by
  cases condition with
  | none => exact .pure ⟨names, start⟩
  | some e =>
      simp only [testCode, Routine.Holds, Routine.holds_append, codeSize, codeSize_append,
        Directive.size, Operation.operand, Operand.width, Nat.reduceAdd] at holds ⊢
      refine (e.follows calls start names holds.1).bind fun v after last known => ?_
      obtain ⟨next, steps, there⟩ := known.2.branch calls.serves holds.2.1
      refine .before steps (Nat.le_add_left ..) ?_
      cases truth : v.truthy with
      | true =>
          rw [if_pos truth] at there
          obtain ⟨popped, more, lower⟩ := Call.At.drop calls.serves there holds.2.2.1
          exact .before more (Nat.le_add_left ..) (.pure ⟨known.1, lower.place (by omega)⟩)
      | false =>
          rw [if_neg (by rw [truth]; exact Bool.false_ne_true)] at there
          exact .pure ⟨known.1, rfl, v, there.place (by omega)⟩

end

namespace Call

variable {c : Call} {p : Nat} {env : Environment} {scope : List String} {m : Machine} {host : Host}
  (serves : host.Serves)

include serves

theorem At.acrossStep {step : Option Expression} {target : Nat} (start : c.At p env [] m)
    (holds : c.routine.Holds p (stepCode c.routine.constants scope p target step)) :
    ∃ n last, Machine.Steps host n m last ∧
      c.At (p + codeSize (stepCode c.routine.constants scope p target step)) env [] last := by
  cases step with
  | none => exact ⟨0, m, .none, start⟩
  | some e =>
      simp only [stepCode, Routine.Holds, codeSize, codeSize_append, Directive.size,
        Script.loopBack, Operation.operand, Operand.width, Nat.reduceAdd] at holds ⊢
      obtain ⟨last, steps, there⟩ := start.jump serves holds.1
      exact ⟨1, last, steps, there.place (by omega)⟩

theorem At.close {condition : Option Expression} {v : Value} (start : c.At p env [v] m)
    (tested : condition.isSome) (holds : c.routine.Holds p (closingCode condition)) :
    ∃ last, Machine.Steps host 1 m last ∧ c.At (p + codeSize (closingCode condition)) env [] last := by
  rw [closingCode, if_pos tested] at holds ⊢
  exact start.drop serves holds.1

end Call

section

variable {c : Call} {p : Nat} {env : Environment} {scope : List String} {m : Machine} {host : Host}
  {least : Nat} {library : Library} {level : Level} (calls : level.Calls library host least)

include calls

theorem Script.step_follows {step : Option Expression} {target : Nat} (start :
      c.At (stepStart p target step) env [] m) (names : env.names = scope) (before : target ≤ p)
    (holds : c.routine.Holds p (stepCode c.routine.constants scope p target step)) :
    m.Tracks host (least + 1) (fun _ => c.Passes target scope)
      (perform library level c.routine step env) := by
  cases step with
  | none => exact .pure ⟨names, start⟩
  | some e =>
      have layout : stepCode c.routine.constants scope p target (some e) =
          ⟨.jump, codeSize (e.code c.routine.constants scope) + 4⟩ ::
            ((e.code c.routine.constants scope ++ [{ op := .pop }]) ++
              [loopBack (p + codeSize (e.code c.routine.constants scope) + 4) target]) := by
        simp [stepCode]
      rw [layout, Routine.Holds, Routine.holds_append, codeSize_append] at holds
      have second : c.At (p + 3) env [] m := start
      refine (perform_follows calls second names holds.2.1).onward
        fun _ after last known => ?_
      have has := holds.2.2.1
      simp only [codeSize, Directive.size, Operation.operand, Operand.width, Nat.reduceAdd] at has
      rw [show p + 3 + (codeSize (e.code c.routine.constants scope) + 1) =
        p + codeSize (e.code c.routine.constants scope) + 4 by omega] at has
      have there : c.At (p + codeSize (e.code c.routine.constants scope) + 4) after [] last :=
        known.2.place (by omega)
      obtain ⟨next, steps, back⟩ := there.loopBack calls.serves has (by omega)
      exact ⟨1, next, steps, known.1, back⟩

end

/-- A loop stands at an offset. Its last clause, its body, the jump back and what follows the loop have
offsets of their own. -/
structure Routine.HoldsLoop (r : Routine) (scope : List String) (condition step : Option Expression)
    (slots : List Slot) (p clause first back last : Nat) : Prop where
  clauseEq : clause = p + codeSize (testCode r.constants scope 0 condition)
  firstEq : first = clause + codeSize (stepCode r.constants scope clause p step)
  backEq : back = first + slotsSize slots
  lastEq : last = back + 3 + codeSize (closingCode condition)
  tests : r.Holds p (testCode r.constants scope (back + 3 - clause + 1) condition)
  steps : r.Holds clause (stepCode r.constants scope clause p step)
  inner : r.Holds first (resolveFrom last first slots)
  again : r.Has back (loopBack back (stepStart clause p step))
  closing : r.Holds (back + 3) (closingCode condition)

theorem Routine.Holds.loop {r : Routine} {scope : List String} {p clause first : Nat}
    {condition step : Option Expression} {body : LoopSite → Nat → List Slot} {slots : List Slot}
    (holds : r.Holds p (loopCode r.constants scope p condition step body))
    (clauseEq : clause = p + codeSize (testCode r.constants scope 0 condition))
    (firstEq : first = clause + codeSize (stepCode r.constants scope clause p step))
    (slotsEq : slots = body ⟨stepStart clause p step, scope.length⟩ first) :
    r.HoldsLoop scope condition step slots p clause first (first + slotsSize slots)
      (p + codeSize (loopCode r.constants scope p condition step body)) := by
  have whole := loopCode.eq_1 r.constants scope p condition step body
  simp only [← clauseEq, ← firstEq, ← slotsEq] at whole
  have back : ∀ q target, (loopBack q target).size = 3 := fun _ _ => rfl
  have testEq : p + codeSize (testCode r.constants scope
      (codeSize (stepCode r.constants scope clause p step) + slotsSize slots + 4) condition) = clause := by
    rw [codeSize_testCode _ _ _ 0, clauseEq]
  rw [whole] at holds
  simp only [Routine.holds_append, Routine.Holds, codeSize_append, codeSize_resolveFrom, back,
    ← Nat.add_assoc, testEq, ← firstEq] at holds
  obtain ⟨⟨⟨tests, steps⟩, inner⟩, again, closing⟩ := holds
  have lastEq : p + codeSize (loopCode r.constants scope p condition step body) =
      first + slotsSize slots + 3 + codeSize (closingCode condition) := by
    rw [whole]
    simp only [codeSize, codeSize_append, codeSize_resolveFrom, back, ← Nat.add_assoc, testEq,
      ← firstEq]
  refine ⟨clauseEq, firstEq, rfl, lastEq, ?_, steps, ?_, again, closing⟩
  · rwa [show first + slotsSize slots + 3 - clause + 1 =
      codeSize (stepCode r.constants scope clause p step) + slotsSize slots + 4 by omega]
  · rwa [lastEq]

theorem Routine.HoldsLoop.inside {r : Routine} {scope : List String}
    {condition step : Option Expression} {slots : List Slot} {p clause first back last : Nat}
    (holds : r.HoldsLoop scope condition step slots p clause first back last) :
    Inside (fun _ _ => True) scope (some ⟨stepStart clause p step, scope.length⟩) last first
      (slotsSize slots) := by
  have clauseEq := holds.clauseEq
  have firstEq := holds.firstEq
  have backEq := holds.backEq
  have lastEq := holds.lastEq
  have againLe := stepStart_le r.constants scope (show p ≤ clause by omega) step
  intro site member
  obtain rfl := Option.some.inj member
  exact ⟨Nat.le_refl _, by dsimp only; omega, by omega, trivial, trivial⟩

section

variable {c : Call} {p : Nat} {env : Environment} {scope : List String} {m : Machine} {host : Host}
  {least : Nat} {library : Library} {level : Level} (calls : level.Calls library host least)

include calls

theorem Script.round_follows {condition step : Option Expression} {slots : List Slot}
    {clause first back target : Nat} {exec again : Eval Completion}
    (holds : c.routine.HoldsLoop scope condition step slots p clause first back target)
    (start : c.At p env [] m) (names : env.names = scope)
    (inner : ∀ {env : Environment} {m : Machine}, c.At first env [] m → env.names = scope →
      m.Tracks host (least + 1)
        (c.Leaves (some ⟨stepStart clause p step, scope.length⟩) target back scope (· = scope))
        (exec env))
    (others : ∀ {env : Environment} {m : Machine}, c.At p env [] m → env.names = scope →
      m.Tracks host least (c.Leaves none 0 target scope (· = scope)) (again env)) :
    m.Tracks host (least + 1) (c.Leaves none 0 target scope (· = scope))
      (round (test library level c.routine condition) exec (perform library level c.routine step)
        again env) := by
  have clauseEq := holds.clauseEq
  have firstEq := holds.firstEq
  have backEq := holds.backEq
  have lastEq := holds.lastEq
  have againLe := stepStart_le c.routine.constants scope (show p ≤ clause by omega) step
  have goesOn : ∀ {env : Environment} {m : Machine},
      c.GoesBack (stepStart clause p step) env m → env.names = scope →
      m.Tracks host (least + 1) (c.Leaves none 0 target scope (· = scope))
        ((do perform library level c.routine step; again : Eval Completion) env) := by
    intro env m goes names
    obtain ⟨next, steps, there⟩ := goes.back calls.serves
    refine .afterStep steps ?_
    have stepped : next.Tracks host least (fun _ => c.Passes p scope) _ :=
      (step_follows calls there names (by omega) holds.steps).before .none (by omega)
    exact stepped.bind fun _ after last known => others known.2 known.1
  refine (test_follows calls start names holds.tests).bind
    fun passed after last known => ?_
  obtain ⟨names, known⟩ := known
  cases passed with
  | true =>
      rw [if_pos rfl] at known
      obtain ⟨n, next, steps, there⟩ := Call.At.acrossStep calls.serves (known.place clauseEq.symm) holds.steps
      refine .before steps (Nat.le_add_left ..) ?_
      refine (inner (there.place firstEq.symm) names).bind fun completion after last leaves => ?_
      have kept : ∀ env : Environment, env.names = scope → env.keep scope.length = env := by
        intro env names
        rw [← names, env.keep_all]
      cases completion with
      | normal => exact goesOn ⟨back, holds.again, by omega, leaves.2⟩ leaves.1
      | continued =>
          obtain ⟨names, site, member, goes⟩ := leaves
          obtain rfl := Option.some.inj member
          rw [kept after names] at goes
          exact goesOn goes names
      | broke =>
          obtain ⟨names, site, member, there⟩ := leaves
          obtain rfl := Option.some.inj member
          rw [kept after names] at there
          exact .pure ⟨names, there⟩
      | returned v => exact .pure leaves
  | false =>
      rw [if_neg Bool.false_ne_true] at known
      obtain ⟨tested, v, known⟩ := known
      obtain ⟨next, steps, there⟩ := Call.At.close calls.serves (known.place (by omega)) tested holds.closing
      exact .before steps (Nat.le_add_left ..) (.pure ⟨names, there.place lastEq.symm⟩)

end

end Reckoner
