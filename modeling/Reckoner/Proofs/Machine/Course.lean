import Reckoner.Proofs.Machine.Safety
import Reckoner.Proofs.Script.Semantics

/-!
Machines that follow an evaluation. A machine does so if it takes steps to where the evaluation ends,
or raises the same fault, or has as many steps ahead of it as are asked for; a machine that runs into
one of its limits is excused.
-/

namespace Reckoner

open Script

/-- Whether a fault comes from the number of calls in progress or the height of the stack. -/
def Cause.isLimit : Cause → Bool
  | .callDepth | .stackFull => true
  | _ => false

namespace Machine

inductive Steps (host : Host) : Nat → Machine → Machine → Prop where
  | none {m : Machine} : Steps host 0 m m
  | more {n : Nat} {m next last : Machine} (stepped : m.step host = .next next)
    (others : Steps host n next last) : Steps host (n + 1) m last

namespace Steps

variable {host : Host} {n k : Nat} {m next last : Machine}

theorem one (stepped : m.step host = .next next) : Steps host 1 m next := .more stepped .none

theorem trans (first : Steps host n m next) (second : Steps host k next last) :
    Steps host (n + k) m last := by
  induction first with
  | none => rwa [Nat.zero_add]
  | more stepped others ih =>
      rw [Nat.succ_add]
      exact .more stepped (ih second)

theorem orderly (serves : host.Serves) (start : m.Orderly) (steps : Steps host n m last) :
    last.Orderly := by
  induction steps with
  | none => exact start
  | more stepped others ih =>
      have safe := step_orderly serves start
      rw [stepped] at safe
      exact ih safe

theorem run_eq (steps : Steps host n m last) (fuel : Nat) :
    m.run host (n + fuel) = last.run host fuel := by
  induction steps with
  | none => rw [Nat.zero_add]
  | more stepped others ih =>
      rw [Nat.succ_add, run, stepped]
      exact ih

end Steps

def Fails (host : Host) (m : Machine) (f : Fault) (after : Machine) : Prop :=
  ∃ n last, Steps host n m last ∧ last.step host = .fault f after

def Limited (host : Host) (m : Machine) : Prop :=
  ∃ f after, m.Fails host f after ∧ f.cause.isLimit = true

theorem Fails.before {host : Host} {n : Nat} {m next after : Machine} {f : Fault}
    (steps : Steps host n m next) (fails : next.Fails host f after) : m.Fails host f after := by
  obtain ⟨k, last, others, raised⟩ := fails
  exact ⟨n + k, last, steps.trans others, raised⟩

theorem Limited.before {host : Host} {n : Nat} {m next : Machine} (steps : Steps host n m next)
    (limited : next.Limited host) : m.Limited host := by
  obtain ⟨f, after, fails, limit⟩ := limited
  exact ⟨f, after, fails.before steps, limit⟩

end Machine

/-- What steps of a machine correspond to an outcome. An evaluation that is done has led to a machine
that is good for its result; one that is unfinished has at least some steps behind it. -/
def Script.Outcome.Matches {α : Type} (host : Host) (least : Nat)
    (good : α → Environment → Machine → Prop) (m : Machine) : Outcome α → Prop
  | .done result env => ∃ n last, Machine.Steps host n m last ∧ good result env last
  | .fault cause shared => ∃ f after, m.Fails host f after ∧ f.cause = cause ∧ after.shared = shared
  | .unfinished => ∃ n last, least ≤ n ∧ Machine.Steps host n m last

/-- The machine goes as an evaluation does, unless it runs into one of its limits. -/
def Machine.Tracks {α : Type} (host : Host) (least : Nat)
    (good : α → Environment → Machine → Prop) (m : Machine) (outcome : Outcome α) : Prop :=
  m.Limited host ∨ outcome.Matches host least good m

def Step.Shows {α : Type} (good : α → Environment → Machine → Prop) (outcome : Outcome α) :
    Step → Prop
  | .next m => ∃ result env, outcome = .done result env ∧ good result env m
  | .fault f m => f.cause.isLimit = true ∨ outcome = .fault f.cause m.shared
  | _ => False

namespace Machine.Tracks

variable {α β : Type} {host : Host} {least more n : Nat} {m next : Machine}
  {good better : α → Environment → Machine → Prop} {outer : β → Environment → Machine → Prop}
  {outcome : Outcome α}

theorem onward (follows : m.Tracks host least good outcome)
    (goes : ∀ result env last, good result env last →
      ∃ n next, Steps host n last next ∧ better result env next) :
    m.Tracks host least better outcome := by
  refine follows.imp_right fun matched => ?_
  cases outcome with
  | done result env =>
      obtain ⟨n, last, steps, known⟩ := matched
      obtain ⟨k, next, more, improved⟩ := goes result env last known
      exact ⟨n + k, next, steps.trans more, improved⟩
  | fault cause shared => exact matched
  | unfinished => exact matched

theorem mono (follows : m.Tracks host least good outcome)
    (improves : ∀ result env last, good result env last → better result env last) :
    m.Tracks host least better outcome :=
  follows.onward fun result env last known => ⟨0, last, .none, improves result env last known⟩

theorem before (steps : Steps host n m next) (enough : more ≤ n + least)
    (follows : next.Tracks host least good outcome) : m.Tracks host more good outcome := by
  refine follows.imp (·.before steps) fun goes => ?_
  cases outcome with
  | done result env =>
      obtain ⟨k, last, others, known⟩ := goes
      exact ⟨n + k, last, steps.trans others, known⟩
  | fault cause shared =>
      obtain ⟨f, after, fails, same⟩ := goes
      exact ⟨f, after, fails.before steps, same⟩
  | unfinished =>
      obtain ⟨k, last, bound, others⟩ := goes
      exact ⟨n + k, last, by omega, steps.trans others⟩

theorem afterStep (step : Steps host 1 m next) (follows : next.Tracks host least good outcome) :
    m.Tracks host (least + 1) good outcome := follows.before step (Nat.le_of_eq (Nat.add_comm ..))

theorem andThen {rest : α → Environment → Outcome β}
    (first : m.Tracks host least good outcome)
    (second : ∀ result env last, good result env last →
      last.Tracks host least outer (rest result env)) :
    m.Tracks host least outer (outcome.andThen rest) := by
  rcases first with limited | goes
  · exact .inl limited
  · cases outcome with
    | done result env =>
        obtain ⟨n, last, steps, known⟩ := goes
        exact (second result env last known).before steps (Nat.le_add_left ..)
    | fault cause shared => exact .inr goes
    | unfinished => exact .inr goes

theorem bind {first : Eval α} {rest : α → Eval β} {env : Environment}
    (start : m.Tracks host least good (first env))
    (second : ∀ result env last, good result env last →
      last.Tracks host least outer (rest result env)) :
    m.Tracks host least outer ((first >>= rest) env) := start.andThen second

theorem pure {result : α} {env : Environment} (known : good result env m) :
    m.Tracks host least good ((Pure.pure result : Eval α) env) := .inr ⟨0, m, .none, known⟩

theorem of_step (serves : host.Serves) (orderly : m.Orderly)
    (shown : (m.step host).Shows good outcome) :
    m.Tracks host least (fun result env last => good result env last ∧ last.Orderly) outcome := by
  cases stepped : m.step host with
  | next last =>
      rw [stepped] at shown
      obtain ⟨result, env, rfl, known⟩ := shown
      exact .inr ⟨1, last, .one stepped, known, (Steps.one stepped).orderly serves orderly⟩
  | fault f after =>
      rw [stepped] at shown
      have fails : m.Fails host f after := ⟨0, m, .none, stepped⟩
      rcases shown with limit | rfl
      · exact .inl ⟨f, after, fails, limit⟩
      · exact .inr ⟨f, after, fails, rfl, rfl⟩
  | _ =>
      rw [stepped] at shown
      exact shown.elim

end Machine.Tracks

end Reckoner
