import Reckoner.Proofs.Machine.Calls

/-!
Expressions. The code of an expression goes as its evaluation does, whatever already waits on the
stack, and leaves its value on top.
-/

namespace Reckoner

open Script

namespace Call

variable {c : Call} {p : Nat} {env : Environment} {scope : List String} {temps : List Value}
  {m : Machine} {host : Host} {least : Nat} {library : Library} {level : Level}

def YieldsAll (c : Call) (p : Nat) (names : List String) (temps : List Value) (count : Nat)
    (values : List Value) (env : Environment) (m : Machine) : Prop :=
  env.names = names ∧ values.length = count ∧ c.At p env (temps ++ values) m

end Call

section

variable {c : Call} {host : Host} {least : Nat} {library : Library} {level : Level}

mutual

theorem Script.Expression.follows {p : Nat} {env : Environment} {scope : List String}
    {temps : List Value} {m : Machine} (e : Expression) (calls : level.Calls library host least)
    (start : c.At p env temps m) (names : env.names = scope)
    (holds : c.routine.Holds p (e.code c.routine.constants scope)) :
    m.Tracks host (least + 1)
      (c.Yields (p + codeSize (e.code c.routine.constants scope)) scope temps)
      (e.eval library level c.routine env) := by
  cases e with
  | number d =>
      subst names
      rw [Expression.code] at holds ⊢
      -- What is stored may be written otherwise; the library tells what a literal stands for.
      obtain ⟨number, stored, -⟩ := Pool.find_number (holds.1.stored rfl)
      rw [Expression.eval, calls.sound.literal _ _ _ stored]
      exact start.constant calls.serves holds.1 stored rfl
  | bool b =>
      subst names
      rw [Expression.code] at holds ⊢
      rw [Expression.eval]
      have size : codeSize [({ op := if b then .true else .false } : Directive)] = 1 := by
        cases b <;> rfl
      rw [size]
      exact start.truth calls.serves holds.1
  | read name =>
      rw [Expression.code] at holds ⊢
      rw [Expression.eval]
      exact start.load calls.serves names holds.1
  | assign name e =>
      simp only [Expression.code, Routine.holds_append, codeSize_append] at holds ⊢
      rw [Expression.eval, ← Nat.add_assoc]
      refine (e.follows calls start names holds.1).bind fun v after last known => ?_
      exact known.2.store calls.serves known.1 holds.2.1
  | update name op e =>
      simp only [Expression.code, Routine.Holds, Routine.holds_append, codeSize, codeSize_append,
        ← Nat.add_assoc] at holds ⊢
      rw [Expression.eval]
      refine (start.load calls.serves names holds.1).bind fun old after last known => ?_
      refine (e.follows calls known.2 known.1 holds.2.1.1).bind fun v after last known => ?_
      obtain ⟨names, here⟩ := known
      rw [List.append_assoc] at here
      refine (here.operator calls.serves op holds.2.1.2).bind fun new after last known => ?_
      exact known.2.store calls.serves (known.1.trans names) holds.2.2.1
  | negate e =>
      simp only [Expression.code, Routine.holds_append, codeSize_append] at holds ⊢
      rw [Expression.eval, ← Nat.add_assoc]
      refine (e.follows calls start names holds.1).bind fun v after last known => ?_
      obtain ⟨rfl, here⟩ := known
      exact here.negative calls.serves holds.2.1
  | not e =>
      simp only [Expression.code, Routine.holds_append, codeSize_append] at holds ⊢
      rw [Expression.eval, ← Nat.add_assoc]
      refine (e.follows calls start names holds.1).bind fun v after last known => ?_
      obtain ⟨rfl, here⟩ := known
      exact here.negated calls.serves holds.2.1
  | binary op a b =>
      simp only [Expression.code, Routine.holds_append, codeSize_append, ← Nat.add_assoc] at holds ⊢
      rw [Expression.eval]
      refine (a.follows calls start names holds.1.1).bind fun x after last known => ?_
      obtain ⟨names, here⟩ := known
      refine (b.follows calls here names holds.1.2).bind fun y after last known => ?_
      obtain ⟨rfl, here⟩ := known
      rw [List.append_assoc] at here
      exact here.operator calls.serves op holds.2
  | and a b =>
      simp only [Expression.code, Routine.Holds, Routine.holds_append, codeSize, codeSize_append,
        Directive.size, Operation.operand, Operand.width, Nat.reduceAdd] at holds ⊢
      rw [Expression.eval]
      refine (a.follows calls start names holds.1).bind fun x after last known => ?_
      obtain ⟨names, here⟩ := known
      obtain ⟨next, steps, there⟩ := here.branch calls.serves holds.2.1
      refine .before steps (Nat.le_add_left ..) ?_
      by_cases truth : x.truthy = true
      · rw [if_pos truth] at there
        rw [if_pos truth]
        obtain ⟨popped, more, lower⟩ := there.pop calls.serves holds.2.2.1
        refine .before more (Nat.le_add_left ..) ?_
        have right := b.follows calls lower names holds.2.2.2
        simpa only [Nat.add_assoc] using right
      · rw [if_neg truth] at there
        rw [if_neg truth]
        exact .pure ⟨names, there.place (by omega)⟩
  | or a b =>
      simp only [Expression.code, Routine.Holds, Routine.holds_append, codeSize, codeSize_append,
        Directive.size, Operation.operand, Operand.width, Nat.reduceAdd] at holds ⊢
      rw [Expression.eval]
      refine (a.follows calls start names holds.1).bind fun x after last known => ?_
      obtain ⟨names, here⟩ := known
      obtain ⟨next, steps, there⟩ := here.branch calls.serves holds.2.1
      refine .before steps (Nat.le_add_left ..) ?_
      by_cases truth : x.truthy = true
      · rw [if_pos truth] at there
        rw [if_pos truth]
        obtain ⟨jumped, more, away⟩ := there.jump calls.serves holds.2.2.1
        refine .before more (Nat.le_add_left ..) ?_
        exact .pure ⟨names, away.place (by omega)⟩
      · rw [if_neg truth] at there
        rw [if_neg truth]
        obtain ⟨popped, more, lower⟩ := there.pop calls.serves holds.2.2.2.1
        refine .before more (Nat.le_add_left ..) ?_
        have right := b.follows calls lower names holds.2.2.2.2
        simpa only [Nat.add_assoc] using right
  | call f args =>
      simp only [Expression.code, Routine.Holds, Routine.holds_append, codeSize, codeSize_append,
        ← Nat.add_assoc] at holds ⊢
      rw [Expression.eval]
      refine (f.follows calls start names holds.1.1).bind fun callee after last known => ?_
      obtain ⟨names, here⟩ := known
      refine (evalAll_follows args calls here names holds.1.2).bind fun values after last known => ?_
      obtain ⟨rfl, length, here⟩ := known
      rw [List.append_assoc] at here
      have has := holds.2.1
      rw [← length] at has
      exact here.call calls has

theorem Script.evalAll_follows {p : Nat} {env : Environment} {scope : List String}
    {temps : List Value} {m : Machine} (args : List Expression)
    (calls : level.Calls library host least) (start : c.At p env temps m) (names : env.names = scope)
    (holds : c.routine.Holds p (codeOfAll c.routine.constants scope args)) :
    m.Tracks host (least + 1)
      (c.YieldsAll (p + codeSize (codeOfAll c.routine.constants scope args)) scope temps args.length)
      (evalAll library level c.routine args env) := by
  cases args with
  | nil =>
      rw [evalAll]
      refine .pure ⟨names, rfl, ?_⟩
      rwa [List.append_nil]
  | cons e rest =>
      simp only [codeOfAll, Routine.holds_append, codeSize_append, ← Nat.add_assoc] at holds ⊢
      rw [evalAll]
      refine (e.follows calls start names holds.1).bind fun v after last known => ?_
      obtain ⟨names, here⟩ := known
      refine (evalAll_follows rest calls here names holds.2).bind fun values after last known => ?_
      obtain ⟨names, length, here⟩ := known
      refine .pure ⟨names, congrArg (· + 1) length, ?_⟩
      rwa [List.append_assoc] at here

end

end

end Reckoner
