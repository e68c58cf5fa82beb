import Reckoner.Proofs.Machine.Loops

/-!
Statements. The code of a statement goes as its execution does: it starts and ends with nothing on the
stack above the locals, whichever way it is left, and leads where the execution says.
-/

namespace Reckoner

open Script

structure Routine.HoldsChoice (r : Routine) (test : List Directive) (a b : List Slot)
    (target p yes no : Nat) : Prop where
  yesEq : yes = p + codeSize test + 4
  noEq : no = yes + slotsSize a + 4
  first : r.Holds p test
  branch : r.Has (p + codeSize test) ⟨.jumpIfFalse, slotsSize a + 4⟩
  pop : r.Has (p + codeSize test + 3) { op := .pop }
  consequent : r.Holds yes (resolveFrom target yes a)
  jump : r.Has (yes + slotsSize a) ⟨.jump, slotsSize b + 1⟩
  popToo : r.Has (yes + slotsSize a + 3) { op := .pop }
  alternative : r.Holds no (resolveFrom target no b)

theorem Routine.Holds.choice {r : Routine} {test : List Directive} {a b : List Slot}
    {target p yes no : Nat}
    (holds : r.Holds p (resolveFrom target p
      (fixedSlots (test ++ [⟨.jumpIfFalse, slotsSize a + 4⟩, { op := .pop }]) ++ a
        ++ fixedSlots [⟨.jump, slotsSize b + 1⟩, { op := .pop }] ++ b)))
    (yesEq : yes = p + codeSize test + 4) (noEq : no = yes + slotsSize a + 4) :
    r.HoldsChoice test a b target p yes no := by
  simp only [resolveFrom_append, resolveFrom_fixedSlots, slotsSize_append, slotsSize_fixedSlots,
    codeSize_append, codeSize_resolveFrom, Routine.holds_append, Routine.Holds, codeSize,
    Directive.size, Operation.operand, Operand.width, Nat.reduceAdd, ← Nat.add_assoc, Nat.add_zero,
    and_true] at holds
  have place : p + codeSize test + 3 + 1 = yes := yesEq.symm
  have placeToo : yes + slotsSize a + 3 + 1 = no := noEq.symm
  rw [place, placeToo] at holds
  obtain ⟨⟨⟨⟨first, branch, pop⟩, consequent⟩, jump, popToo⟩, alternative⟩ := holds
  exact ⟨yesEq, noEq, first, branch, pop, consequent, jump, popToo, alternative⟩

def Script.Level.Loops (level : Level) (host : Host) (least : Nat) : Prop :=
  ∀ c p env m scope condition step s, Call.At c p env [] m → env.names = scope →
    c.routine.Holds p (loopCode c.routine.constants scope p condition step fun site q =>
      s.code c.routine.constants c.routine.identity.unit scope (some site) q) →
    m.Tracks host least
      (c.Leaves none 0 (p + codeSize (loopCode c.routine.constants scope p condition step
        fun site q => s.code c.routine.constants c.routine.identity.unit scope (some site) q))
        scope (· = scope))
      (level.loop c.routine condition step s env)

/-- What a machine needs to follow statements: all that calls need, and a level with rounds of loops. -/
structure Script.Level.Runs (level : Level) (library : Library) (host : Host) (least : Nat) : Prop
    extends level.Calls library host least where
  loops : level.Loops host least

namespace Call

variable {c : Call} {p : Nat} {env : Environment} {m : Machine} {host : Host} {least target : Nat}
  {loop : Option LoopSite} {outer inner : List String}

theorem At.closeScope (serves : host.Serves) (start : c.At p env [] m)
    (names : env.names = inner ++ outer) (holds : c.routine.Holds p (popCode inner.length)) :
    ∃ n last, Machine.Steps host n m last ∧
      c.At (p + codeSize (popCode inner.length)) (env.keep outer.length) [] last := by
  have length : env.names.length - outer.length = inner.length := by
    rw [names, List.length_append]
    omega
  rw [← length] at holds ⊢
  exact start.pops serves holds

theorem Leaves.close (serves : host.Serves) {completion : Completion}
    (leaves : c.Leaves loop target p (inner ++ outer) (outer <:+ ·) completion env m)
    (sites : ∀ site ∈ loop, site.height ≤ outer.length)
    (holds : c.routine.Holds p (popCode inner.length)) :
    ∃ n last, Machine.Steps host n m last ∧
      c.Leaves loop target (p + codeSize (popCode inner.length)) outer (· = outer) completion
        (env.keep outer.length) last := by
  have settled : ∀ {env : Environment}, outer <:+ env.names → (env.keep outer.length).names = outer := by
    rintro env ⟨before, whole⟩
    exact Environment.names_keep whole.symm
  cases completion with
  | normal =>
      obtain ⟨names, here⟩ := leaves
      obtain ⟨n, last, steps, there⟩ := here.closeScope serves names holds
      exact ⟨n, last, steps, Environment.names_keep names, there⟩
  | broke =>
      obtain ⟨suffix, site, member, there⟩ := leaves
      refine ⟨0, m, .none, settled suffix, site, member, ?_⟩
      rwa [env.keep_keep (sites site member)]
  | continued =>
      obtain ⟨suffix, site, member, goes⟩ := leaves
      refine ⟨0, m, .none, settled suffix, site, member, ?_⟩
      rwa [env.keep_keep (sites site member)]
  | returned v => exact ⟨0, m, .none, leaves⟩

theorem Leaves.goOn {completion : Completion} {names : List String} {kept : List String → Prop}
    {q : Nat} (leaves : c.Leaves loop target p names kept completion env m)
    (moves : c.At p env [] m → ∃ n last, Machine.Steps host n m last ∧ c.At q env [] last) :
    ∃ n last, Machine.Steps host n m last ∧ c.Leaves loop target q names kept completion env last := by
  cases completion with
  | normal =>
      obtain ⟨n, last, steps, there⟩ := moves leaves.2
      exact ⟨n, last, steps, leaves.1, there⟩
  | _ => exact ⟨0, m, .none, leaves⟩

theorem Leaves.widen {completion : Completion} {names : List String} {kept wider : List String → Prop}
    (leaves : c.Leaves loop target p names kept completion env m)
    (weaker : ∀ names, kept names → wider names) :
    c.Leaves loop target p names wider completion env m := by
  cases completion with
  | normal => exact leaves
  | broke | continued => exact ⟨weaker _ leaves.1, leaves.2⟩
  | returned v => exact leaves

end Call

section

variable {c : Call} {host : Host} {least : Nat} {library : Library} {level : Level}

theorem Script.Initializer.follows {p : Nat} {env : Environment} {scope : List String} {m : Machine}
    (first : Initializer) (calls : level.Calls library host least) (start : c.At p env [] m)
    (names : env.names = scope) (holds : c.routine.Holds p (first.code c.routine.constants scope)) :
    m.Tracks host (least + 1)
      (fun _ => c.Passes (p + codeSize (first.code c.routine.constants scope)) (first.names ++ scope))
      (first.eval library level c.routine env) := by
  cases first with
  | none => exact .pure ⟨names, start⟩
  | var name value =>
      refine (evalOptional_follows calls start names holds).bind
        fun v after last known => ?_
      obtain ⟨rfl, here⟩ := known
      have nothing : c.routine.Holds (p + codeSize (codeOfOptional c.routine.constants after.names value))
          (defineCode c.routine.constants false name) := trivial
      exact Call.At.declared calls.serves here nothing
  | expression e =>
      simp only [Initializer.code, codeSize_append, ← Nat.add_assoc] at holds ⊢
      exact perform_follows calls start names holds

mutual

theorem Script.Statement.follows {p target : Nat} {env : Environment} {scope : List String}
    {loop : Option LoopSite} {m : Machine} (s : Statement)
    (runs : level.Runs library host least) (start : c.At p env [] m) (names : env.names = scope)
    (nested : Inside (fun _ _ => True) scope loop target p
      (slotsSize (s.code c.routine.constants c.routine.identity.unit scope loop p)))
    (holds : c.routine.Holds p (resolveFrom target p
      (s.code c.routine.constants c.routine.identity.unit scope loop p))) :
    m.Tracks host (least + 1)
      (c.Leaves loop target
        (p + slotsSize (s.code c.routine.constants c.routine.identity.unit scope loop p)) scope
        (· = scope))
      (s.exec library level c.routine loop.isSome env) := by
  cases s with
  | empty => exact .pure ⟨names, start⟩
  | print e =>
      simp only [Statement.code, resolveFrom_fixedSlots, slotsSize_fixedSlots, Routine.holds_append,
        codeSize_append, ← Nat.add_assoc] at holds ⊢
      rw [Statement.exec]
      refine (e.follows runs.toCalls start names holds.1).bind fun v after last known => ?_
      obtain ⟨rfl, here⟩ := known
      exact (Call.At.shown runs.serves here holds.2.1).bind fun _ after last known => .pure known
  | expression e =>
      simp only [Statement.code, resolveFrom_fixedSlots, slotsSize_fixedSlots, codeSize_append,
        ← Nat.add_assoc] at holds ⊢
      rw [Statement.exec]
      exact (perform_follows runs.toCalls start names holds).bind
        fun _ after last known => .pure known
  | ifElse e s t =>
      rw [Statement.code] at holds nested ⊢
      generalize yesEq : p + codeSize (e.code c.routine.constants scope) + 4 = yes at *
      generalize noEq : yes + slotsSize
        (s.code c.routine.constants c.routine.identity.unit scope loop yes) + 4 = no at *
      have layout := holds.choice yesEq.symm noEq.symm
      simp only [slotsSize_append, slotsSize_fixedSlots, codeSize_append, codeSize, Directive.size,
        Operation.operand, Operand.width, Nat.reduceAdd] at nested ⊢
      rw [Statement.exec]
      refine (e.follows runs.toCalls start names layout.first).bind
        fun v after last known => ?_
      obtain ⟨names, here⟩ := known
      obtain ⟨next, steps, there⟩ := here.branch runs.serves layout.branch
      refine .before steps (Nat.le_add_left ..) ?_
      by_cases truth : v.truthy = true
      · rw [if_pos truth] at there
        rw [if_pos truth]
        obtain ⟨popped, more, lower⟩ := Call.At.drop runs.serves there layout.pop
        refine .before more (Nat.le_add_left ..) ?_
        refine (s.follows runs (lower.place yesEq) names
          (nested.narrow (Nat.le_refl _) (by omega) (by omega)) layout.consequent).onward
          fun completion after last leaves => leaves.goOn fun here => ?_
        obtain ⟨next, steps, away⟩ := here.jump runs.serves layout.jump
        exact ⟨1, next, steps, away.place (by omega)⟩
      · rw [if_neg truth] at there
        rw [if_neg truth]
        have failed : c.At (yes + slotsSize (s.code c.routine.constants c.routine.identity.unit scope
          loop yes) + 3) after ([] ++ [v]) next := there.place (by omega)
        obtain ⟨popped, more, lower⟩ := failed.pop runs.serves layout.popToo
        refine .before more (Nat.le_add_left ..) ?_
        refine (t.follows runs (lower.place noEq) names
          (nested.narrow (Nat.le_refl _) (by omega) (by omega)) layout.alternative).onward
          fun completion after last leaves => leaves.goOn fun here => ?_
        exact ⟨0, _, .none, here.place (by omega)⟩
  | «while» e s =>
      simp only [Statement.code, resolveFrom_fixedSlots, slotsSize_fixedSlots] at holds ⊢
      rw [Statement.exec]
      have layout := Routine.Holds.loop holds rfl rfl rfl
      refine (round_follows runs.toCalls layout start names ?_ ?_).mono
        fun completion after last leaves => leaves.outside
      · intro env m start names
        exact s.follows runs start names layout.inside layout.inner
      · intro env m start names
        exact runs.loops c p env m scope _ _ s start names holds
  | «for» first e step s =>
      have heights : ∀ site ∈ loop, site.height ≤ scope.length := fun site member =>
        (nested site member).1
      simp only [Statement.code, resolveFrom_fixedSlots, slotsSize_fixedSlots, Routine.holds_append,
        codeSize_append, ← Nat.add_assoc] at holds ⊢
      rw [Statement.exec]
      have layout := Routine.Holds.loop holds.1.2 rfl rfl rfl
      have length : env.locals.length = scope.length := by rw [← env.length_names, names]
      have rounds := (first.follows runs.toCalls start names holds.1.1).bind
        fun _ after last known => round_follows runs.toCalls layout known.2 known.1
          (fun start names => s.follows runs start names layout.inside layout.inner)
          (fun start names => runs.loops c _ _ _ _ _ _ s start names holds.1.2)
      refine rounds.andThen fun completion after last leaves => ?_
      obtain ⟨n, next, steps, left⟩ := leaves.outside.close runs.serves heights holds.2
      rw [length]
      exact .before steps (Nat.le_add_left ..) (.pure left)
  | «break» =>
      cases loop with
      | none => exact .pure ⟨names, start⟩
      | some site =>
          obtain ⟨height, begins, ends, -⟩ := nested site rfl
          simp only [Statement.code, resolveFrom_append, resolveFrom_fixedSlots, slotsSize_append,
            slotsSize_fixedSlots, Routine.holds_append] at holds ends ⊢
          rw [Statement.exec]
          rw [← names] at holds ends height
          obtain ⟨n, next, steps, there⟩ := start.pops runs.serves holds.1
          obtain ⟨last, more, away⟩ := there.jump runs.serves holds.2.1
          have place : slotsSize [Slot.exit] = 3 := rfl
          refine .before (steps.trans more) (Nat.le_add_left ..) (.pure ⟨names, site, rfl, ?_⟩)
          exact away.place (by omega)
  | «continue» =>
      cases loop with
      | none => exact .pure ⟨names, start⟩
      | some site =>
          obtain ⟨height, begins, -⟩ := nested site rfl
          simp only [Statement.code, resolveFrom_fixedSlots, slotsSize_fixedSlots,
            Routine.holds_append] at holds ⊢
          rw [Statement.exec]
          rw [← names] at holds
          obtain ⟨n, next, steps, there⟩ := start.pops runs.serves holds.1
          refine .before steps (Nat.le_add_left ..) (.pure ⟨names, site, rfl, _, holds.2.1, ?_, there⟩)
          omega
  | «return» value =>
      simp only [Statement.code, resolveFrom_fixedSlots, slotsSize_fixedSlots, Routine.holds_append]
        at holds ⊢
      rw [Statement.exec]
      refine (evalOptional_follows runs.toCalls start names holds.1).bind
        fun v after last known => .pure ?_
      exact ⟨_, after, holds.2.1, rfl, known.2⟩
  | block body =>
      have heights : ∀ site ∈ loop, site.height ≤ scope.length := fun site member =>
        (nested site member).1
      simp only [Statement.code, resolveFrom_append, resolveFrom_fixedSlots, slotsSize_append,
        slotsSize_fixedSlots, Routine.holds_append, codeSize_resolveFrom, ← Nat.add_assoc]
        at holds nested ⊢
      rw [Statement.exec]
      have length : env.locals.length = scope.length := by rw [← env.length_names, names]
      have inner := execAll_follows body runs start names
        (nested.narrow (Nat.le_refl _) (Nat.le_refl _) (by omega)) holds.1
      refine inner.andThen fun completion after last leaves => ?_
      obtain ⟨n, next, steps, left⟩ := leaves.close runs.serves heights holds.2
      rw [length]
      exact .before steps (Nat.le_add_left ..) (.pure left)

theorem Script.Declaration.follows {p target : Nat} {env : Environment} {scope : List String}
    {loop : Option LoopSite} {isGlobal : Bool} {m : Machine} (d : Declaration)
    (runs : level.Runs library host least) (start : c.At p env [] m) (names : env.names = scope)
    (nested : Inside (fun _ _ => True) scope loop target p (slotsSize
      (d.code c.routine.constants c.routine.identity.unit isGlobal scope loop p)))
    (holds : c.routine.Holds p (resolveFrom target p
      (d.code c.routine.constants c.routine.identity.unit isGlobal scope loop p))) :
    m.Tracks host (least + 1)
      (c.Leaves loop target (p + slotsSize
        (d.code c.routine.constants c.routine.identity.unit isGlobal scope loop p))
        (d.names isGlobal ++ scope) (scope <:+ ·))
      (d.exec library level c.routine isGlobal loop.isSome env) := by
  cases d with
  | var name value =>
      simp only [Declaration.code, resolveFrom_fixedSlots, slotsSize_fixedSlots,
        Routine.holds_append, codeSize_append, ← Nat.add_assoc] at holds ⊢
      rw [Declaration.exec]
      refine (evalOptional_follows runs.toCalls start names holds.1).bind
        fun v after last known => ?_
      obtain ⟨rfl, here⟩ := known
      exact (Call.At.declared runs.serves here holds.2).bind fun _ after last known => .pure known
  | function f =>
      simp only [Declaration.code, resolveFrom_fixedSlots, slotsSize_fixedSlots, Routine.Holds,
        codeSize, ← Nat.add_assoc] at holds ⊢
      rw [Declaration.exec]
      obtain ⟨q, stored, -⟩ := Pool.findRoutine_entry (holds.1.stored rfl)
      rw [runs.sound.inner _ _ _ stored]
      subst names
      show m.Tracks _ _ _ ((do
        let v ← (pure (.routine q) : Eval Value)
        declare isGlobal f.name v
        pure .normal : Eval Completion) env)
      refine (start.constant runs.serves holds.1 stored rfl).bind fun v after last known => ?_
      obtain ⟨same, here⟩ := known
      rw [← same]
      exact (Call.At.declared runs.serves here holds.2).bind fun _ after last known => .pure known
  | statement s =>
      exact (s.follows runs start names nested holds).mono fun completion after last leaves =>
        leaves.widen fun names same => same ▸ List.suffix_refl _

theorem Script.execAll_follows {p target : Nat} {env : Environment} {scope : List String}
    {loop : Option LoopSite} {isGlobal : Bool} {m : Machine} (body : List Declaration)
    (runs : level.Runs library host least) (start : c.At p env [] m) (names : env.names = scope)
    (nested : Inside (fun _ _ => True) scope loop target p (slotsSize
      (codeOfBody c.routine.constants c.routine.identity.unit isGlobal scope loop p body)))
    (holds : c.routine.Holds p (resolveFrom target p
      (codeOfBody c.routine.constants c.routine.identity.unit isGlobal scope loop p body))) :
    m.Tracks host (least + 1)
      (c.Leaves loop target (p + slotsSize
        (codeOfBody c.routine.constants c.routine.identity.unit isGlobal scope loop p body))
        (namesOf isGlobal body ++ scope) (scope <:+ ·))
      (execAll library level c.routine isGlobal loop.isSome body env) := by
  cases body with
  | nil => exact .pure ⟨names, start⟩
  | cons d rest =>
      simp only [codeOfBody, resolveFrom_append, slotsSize_append, Routine.holds_append,
        codeSize_resolveFrom, ← Nat.add_assoc] at holds nested ⊢
      rw [execAll, namesOf, List.append_assoc]
      refine (d.follows runs start names (nested.narrow (Nat.le_refl _) (Nat.le_refl _) (by omega))
        holds.1).bind fun completion after last leaves => ?_
      cases completion with
      | normal =>
          have others := execAll_follows rest runs leaves.2 leaves.1
            (nested.narrow (by simp) (by omega) (by omega)) holds.2
          exact others.mono fun completion after last leaves =>
            leaves.widen fun names suffix => (List.suffix_append ..).trans suffix
      | _ => exact .pure leaves

end

end

end Reckoner
