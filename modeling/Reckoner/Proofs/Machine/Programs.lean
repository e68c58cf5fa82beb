import Reckoner.Proofs.Machine.Statements

/-!
Whole functions. A call of a function goes as its program does, to any depth of calls and loops; and a
run of the outermost call ends as the evaluation of its program ends, or not at all if that never ends.
-/

namespace Reckoner

open Script

theorem Script.Program.follows {c : Call} {host : Host} {least : Nat} {library : Library}
    {level : Level} {unit : Nat} {env : Environment} {m : Machine} (program : Program)
    (runs : level.Runs library host least)
    (implements : Implements unit program.isGlobal c.routine program.function)
    (start : c.At 0 env [] m) (names : env.names = program.function.scope) :
    m.Tracks host (least + 1) c.Returns (program.run library level c.routine env) := by
  obtain ⟨marked, carries⟩ := implements.carries
  have unitEq : unit = c.routine.identity.unit := by rw [carries.identity]
  obtain ⟨code, closed⟩ := codeOfBody_closed c.routine.constants unit program.isGlobal
    program.function.scope 0 program.function.body
  have holds := carries.holds
  rw [Function.code, closed, map_draft_fixedSlots, Routine.holds_append, Routine.holds_append,
    codeSize_append] at holds
  obtain ⟨⟨body, result⟩, last⟩ := holds
  have resolved : c.routine.Holds 0 (resolveFrom 0 0 (codeOfBody c.routine.constants
      c.routine.identity.unit program.isGlobal program.function.scope none 0
      program.function.body)) := by
    rw [← unitEq, closed, resolveFrom_fixedSlots]
    exact body
  have size : slotsSize (codeOfBody c.routine.constants c.routine.identity.unit program.isGlobal
      program.function.scope none 0 program.function.body) = codeSize code := by
    rw [← unitEq, closed, slotsSize_fixedSlots]
  rw [Program.run]
  have outside : Inside (fun _ _ => True) program.function.scope none 0 0 (codeSize code) := by
    intro site entered
    cases entered
  rw [← size] at outside
  refine (execAll_follows program.function.body runs start names outside resolved).bind
    fun completion after m leaves => ?_
  rw [size] at leaves
  have falls : ∀ {env : Environment} {m : Machine},
      c.Leaves none 0 (0 + codeSize code)
        (namesOf program.isGlobal program.function.body ++ program.function.scope)
        (program.function.scope <:+ ·) .normal env m →
      m.Tracks host (least + 1) c.Returns
        (evalOptional library level c.routine program.function.result env) := by
    intro env m leaves
    refine (evalOptional_follows runs.toCalls leaves.2 leaves.1 result).mono
      fun v after m known => ⟨_, after, ?_, rfl, known.2⟩
    rw [Nat.add_assoc]
    exact last.1
  cases completion with
  | normal => exact falls leaves
  | returned v => exact .pure leaves
  | broke | continued =>
      obtain ⟨-, site, member, -⟩ := leaves
      cases member

theorem Script.Library.Sound.levels {library : Library} {host : Host} (sound : library.Sound host)
    (serves : host.Serves) (n : Nat) : (library.levels n).Runs library host n := by
  induction n with
  | zero =>
      refine ⟨⟨serves, sound, ?_⟩, ?_⟩
      · intro c env m _ _ _
        exact .inr ⟨0, m, Nat.le_refl _, .none⟩
      · intro c p env m scope condition step s _ _ _
        exact .inr ⟨0, m, Nat.le_refl _, .none⟩
  | succ n ih =>
      refine ⟨⟨serves, sound, ?_⟩, ?_⟩
      · intro c env m compiled names start
        obtain ⟨unit, implements⟩ := sound.program c.routine compiled
        exact (library.program c.routine).follows ih implements start names
      · intro c p env m scope condition step s start names holds
        have layout := Routine.Holds.loop holds rfl rfl rfl
        exact round_follows ih.toCalls layout start names
          (fun start names => s.follows ih start names layout.inside layout.inner)
          (fun start names => ih.loops c p _ _ scope condition step s start names holds)

theorem Call.Returns.finish {c : Call} {v : Value} {env : Environment} {m : Machine} {host : Host}
    (returns : c.Returns v env m) (outermost : c.around = []) :
    (∃ f after, m.step host = .fault f after ∧ f.cause.isLimit = true) ∨
      ∃ after, m.step host = .finished after ∧ after.values = c.below ++ [v] ∧
        after.shared = env.shared := by
  obtain ⟨p, last, has, shared, start⟩ := returns
  obtain ⟨frame, inner, stepped, inside⟩ := start.fetch host has
  obtain ⟨held, frames, base⟩ : ∃ held : Frame,
      inner.frames = [held] ∧ held.base = c.below.length := by
    obtain ⟨last, frames⟩ := inside.frames
    rw [outermost] at frames
    exact ⟨_, frames, rfl⟩
  have whole : inner.values = (c.ground last) ++ [v] := inside.values
  have executed : Machine.execute host inner frame .return 0 = inner.leave := rfl
  have bound : held.base ≤ (c.ground last).length := by
    rw [base, Call.ground, List.length_append]
    omega
  have kept := Machine.values_handed held [] whole bound
  rw [base, Call.ground, List.take_left' rfl] at kept
  rw [executed] at stepped
  by_cases room : (inner.handed held [] v).HasRoom
  · rw [Machine.leave_room frames whole room] at stepped
    refine .inr ⟨_, stepped, ?_, inside.shared.trans shared⟩
    rw [Machine.values, Machine.withStack, Stack.values_push]
    exact congrArg (· ++ [v]) kept
  · rw [Machine.leave_full frames whole room] at stepped
    exact .inl ⟨_, _, stepped, rfl⟩

end Reckoner
