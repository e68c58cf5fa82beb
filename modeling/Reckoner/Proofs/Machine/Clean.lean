import Reckoner.Proofs.Machine.Restoration

/-!
Machines between runs. One with an empty stack and no call in progress is so again after every run,
however it ends, once the result has been taken off; and no run of compiled code crashes on it unless a
native does.
-/

namespace Reckoner

/-- Nothing is left of any run but the globals. -/
structure Machine.Clean (m : Machine) : Prop where
  values : m.values = []
  frames : m.frames = []
  globals : m.ProperGlobals

def Host.Calm (host : Host) : Prop :=
  ∀ n args before reason after, Machine.performBusy host n args before ≠ .crash reason after

/-- An activity leaves a clean machine behind, or one that satisfies a condition if it succeeds. It
does not crash. -/
def Ending.Clears {α : Type} (done : α → Machine → Prop) : Ending α → Prop
  | .done v m => done v m
  | .fault _ m => m.Clean
  | .crash _ _ => False
  | .exhausted _ => True

namespace Machine

section

variable {m : Machine} (clean : m.Clean)

include clean

theorem Clean.rests : m.Rests := by
  refine ⟨?_, ?_, clean.globals⟩
  · rw [isRunning, clean.frames]
    rfl
  · rw [clean.values]
    exact List.forall_mem_nil _

theorem Clean.of_eq {after : Machine} (stack : after.stack = m.stack) (frames : after.frames = m.frames)
    (globals : after.globals = m.globals) : after.Clean where
  values := by
    rw [Machine.values, stack]
    exact clean.values
  frames := frames.trans clean.frames
  globals := by
    intro name v found
    rw [global?, globals] at found
    exact clean.globals name v found

theorem Clean.define {v : Value} (proper : v.Proper) (name : String) : (m.define name v).Clean :=
  ⟨clean.values, clean.frames, clean.globals.define proper name⟩

end

theorem Clean.writeDiagnostics {m : Machine} (clean : m.Clean) (ds : List Diagnostic) :
    (m.writeDiagnostics ds).Clean := by
  rw [Machine.writeDiagnostics]
  induction ds generalizing m with
  | nil => exact clean
  | cons d rest ih => exact ih (clean.of_eq rfl rfl rfl)

theorem duplicate_clean {m : Machine} (globals : m.ProperGlobals) : m.duplicate.Clean :=
  ⟨rfl, rfl, globals⟩

theorem new_clean (maxFrames : Int) (world : World) : (Machine.new maxFrames world).Clean :=
  ⟨rfl, rfl, (new_rests maxFrames world).globals⟩

theorem Twins.rested {p q : Past} {a b : Machine} (twins : Twins p q a b) (rests : b.Rests) :
    a.frames = [] ∧ a.ProperGlobals := by
  constructor
  · have idle := twins.isRunning.trans rests.idle
    simpa [Machine.isRunning] using idle
  · intro name v found
    rw [twins.global?] at found
    exact rests.globals name v found

theorem Twins.clean {p q : Past} {a b : Machine} (twins : Twins p q a b) (rests : b.Rests)
    (values : b.values = q.below) (none : p.below = []) : a.Clean := by
  obtain ⟨frames, globals⟩ := twins.rested rests
  exact ⟨(twins.restored values).trans none, frames, globals⟩

section

variable {host : Host} (serves : host.Serves) (calm : host.Calm)

include serves calm

theorem run_calm {m : Machine} (orderly : m.Orderly) (fuel : Nat) (reason : String) (after : Machine) :
    m.run host fuel ≠ .crash reason after := by
  induction fuel generalizing m with
  | zero => simp [run]
  | succ fuel ih =>
      have safe := step_orderly serves orderly
      rw [run]
      split
      · rename_i next stepped
        rw [stepped] at safe
        exact ih safe
      · simp
      · simp
      · rename_i why last stepped
        rw [stepped] at safe
        obtain ⟨n, args, before, crashed⟩ := safe
        exact absurd crashed (calm n args before why last)
      · simp

variable {m : Machine} (rests : m.Rests) {r : Routine} (compiled : r.Compiled)

include rests compiled

theorem invoke_calm (fuel : Nat) (reason : String) (after : Machine) :
    invoke host fuel (.routine r) [] m.prepare ≠ .crash reason after := by
  cases fuel with
  | zero =>
      rw [invoke]
      simp
  | succ fuel =>
      rw [invoke]
      split
      · simp
      · rename_i full pushed
        simp only [callValue]
        rcases enter_cases full r 0 with ⟨first, entered⟩ | ⟨f, raised, -⟩
        · simp only [List.length_nil, entered]
          have none : ∀ v ∈ ([] : List Value), v.Proper := List.forall_mem_nil _
          exact run_calm serves calm (rests.orderly compiled none ⟨full, pushed, entered⟩) fuel _ _
        · simp only [List.length_nil, raised]
          simp

theorem interpret_calm (fuel : Nat) (reason : String) (after : Machine) :
    m.interpret host fuel r ≠ .crash reason after := by
  cases fuel with
  | zero =>
      rw [interpret]
      simp
  | succ fuel =>
      rw [interpret, if_neg (by rw [rests.idle]; exact Bool.false_ne_true)]
      split
      · simp
      · simp
      · rename_i why last invoked
        exact absurd invoked (invoke_calm serves calm rests compiled fuel why last)
      · simp

end

def Delivers (m : Machine) : Prop := ∃ v popped, m.pop = .ok (v, popped) ∧ popped.Clean

section

variable {host : Host} (honest : host.Honest) {m : Machine} (clean : m.Clean)

include honest clean

theorem Clean.interpret (calm : host.Calm) {r : Routine} (compiled : r.Compiled) (fuel : Nat) :
    (m.interpret host fuel r).Clears fun _ => Delivers := by
  have alike := interpret_standIn honest clean.rests.idle clean.globals fuel compiled
  have uncrashed := interpret_calm honest.serves calm clean.rests compiled fuel
  generalize m.interpret host fuel r = left at alike uncrashed ⊢
  generalize m.standIn.interpret host fuel r = right at alike
  cases left <;> cases right <;> try exact alike.elim
  · obtain ⟨-, later, rested, v, values⟩ := alike
    obtain ⟨frames, globals⟩ := later.rested rested
    have whole := later.raised values
    rw [show m.past.below = [] from clean.values] at whole
    exact ⟨v, _, pop_eq whole, Stack.values_below whole v, frames, globals⟩
  · obtain ⟨-, later, rested, values⟩ := alike
    exact later.clean rested values clean.values
  · exact uncrashed _ _ rfl
  · trivial

theorem Clean.callGlobal (respects : host.Respects) (silent : ∀ reason, ¬CrashedInNative host reason)
    {args : List Value} (propers : ∀ v ∈ args, v.Proper) (name : String) (fuel : Nat) :
    (m.callGlobal host fuel name args).Clears fun _ => Clean := by
  by_cases missing : m.global? name = none
  · cases fuel with
    | zero => trivial
    | succ fuel =>
        rw [Machine.callGlobal, if_neg (Bool.eq_false_iff.mp clean.rests.idle), missing]
        exact clean
  · have alike := callGlobal_standIn honest clean.rests.idle clean.globals fuel propers missing
    have safe := callGlobal_safe respects clean.rests name propers fuel
    generalize m.callGlobal host fuel name args = left at alike safe ⊢
    generalize m.standIn.callGlobal host fuel name args = right at alike
    cases left <;> cases right <;> try exact alike.elim
    · obtain ⟨-, later, -, rested, values⟩ := alike
      exact later.clean rested values clean.values
    · obtain ⟨-, later, rested, values⟩ := alike
      exact later.clean rested values clean.values
    · exact silent _ safe
    · trivial

end

end Machine

end Reckoner
