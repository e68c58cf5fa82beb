import Reckoner.Proofs.Service.Serialisation

/-!
The end of the worker. Being told to stop and leaving are two moments: in between the worker may still
take a job that waits, and so may a call still be served that began in between. Once the worker has left
nothing is executed any more. A call that is open never has to wait for a stopped worker.
-/

namespace Reckoner.Worker

open Moment (begun)

variable {σ α : Type} {jobs : Jobs σ α} {start : σ} {w w' : Worker σ α} {events more : List Event}

theorem next?_left {event : Event} (gone : w.phase = .left) (step : w.next? jobs event = some w') :
    w'.phase = .left ∧ w'.history = w.history ∧ w'.machine = w.machine := by
  cases event with
  | call job =>
    obtain ⟨-, rfl⟩ := next?_call step
    exact ⟨gone, rfl, rfl⟩
  | submit job =>
    obtain ⟨-, rfl⟩ := next?_submit step
    exact ⟨gone, rfl, rfl⟩
  | giveUp job =>
    obtain ⟨-, -, rfl⟩ := next?_giveUp step
    exact ⟨gone, rfl, rfl⟩
  | collect job =>
    obtain ⟨result, -, -, rfl⟩ := next?_collect step
    exact ⟨gone, rfl, rfl⟩
  | receive =>
    obtain ⟨job, rest, receiving, -⟩ := next?_receive step
    cases receiving.symm.trans gone
  | finish =>
    obtain ⟨job, executing, -⟩ := next?_finish step
    cases executing.symm.trans gone
  | reply =>
    obtain ⟨job, result, replying, -⟩ := next?_reply step
    cases replying.symm.trans gone
  | leave =>
    obtain ⟨receiving, -⟩ := next?_leave step
    cases receiving.symm.trans gone
  | stop =>
    rw [next?_stop step]
    exact ⟨gone, rfl, rfl⟩

theorem run?_left (gone : w.phase = .left) (ran : w.run? jobs events = some w') :
    w'.phase = .left ∧ w'.history = w.history ∧ w'.machine = w.machine := by
  induction events generalizing w with
  | nil =>
    cases ran
    exact ⟨gone, rfl, rfl⟩
  | cons event rest ih =>
    obtain ⟨next, step, ran⟩ := run?_cons ran
    obtain ⟨still, history, machine⟩ := next?_left gone step
    obtain ⟨last, sameHistory, sameMachine⟩ := ih still ran
    exact ⟨last, sameHistory.trans history, sameMachine.trans machine⟩

/-- Whatever the callers do after the worker has left, nothing is executed any more, and a call whose job
was not yet in the queue is refused. -/
theorem left_worker_refuses (ran : (Worker.idle start).run? jobs events = some w)
    (gone : w.phase = .left) (later : w.run? jobs more = some w') :
    w'.history = w.history ∧ w'.machine = w.machine ∧
      ∀ job, w.calls job = none ∨ w.calls job = some .submitting →
        job ∉ begun w'.history ∧ ∀ answer, w'.answer? job = some answer → answer = .error .stopped := by
  obtain ⟨-, history, machine⟩ := run?_left gone later
  refine ⟨history, machine, fun job early => ?_⟩
  have sound := (Sound.idle jobs start).run? ran
  have never : job ∉ begun w'.history := by
    rw [history]
    exact fun inside => sound.fresh early (List.mem_append_left _ inside)
  refine ⟨never, fun answer answered => ?_⟩
  have after := sound.run? later
  rcases after.earned job answer (answer?_eq answered) with ⟨refused, -⟩ | ⟨result, ended, -⟩
  · exact refused
  · exact absurd (after.began_of_ended ended) never

theorem giveUp_of_stopped (jobs : Jobs σ α) (stopped : w.stopped = true) {job : Nat}
    (waits : w.calls job = some .submitting ∨ w.calls job = some .waiting) :
    ∃ w', w.next? jobs (.giveUp job) = some w' ∧ w'.answer? job = some (.error .stopped) := by
  refine ⟨w.setCall job (.returned (.error .stopped)), ?_, by simp [answer?]⟩
  rcases waits with submitting | waiting
  · simp only [Worker.next?, submitting, stopped]
  · simp only [Worker.next?, waiting, stopped]

/-- A worker that is told to stop before it has looked at its queue, and a call that begins after that.
The call finds room in the queue, and the worker finds the job before it finds that it is stopped. -/
def servedLate : List Event :=
  [.stop, .call 0, .submit 0, .receive, .finish, .reply, .collect 0]

/-- It is not enough that the worker is told to stop: until it has left, a call that begins may still be
served. -/
theorem stopped_worker_may_serve :
    ∃ w, (Worker.idle 0).run? counting servedLate = some w ∧ w.answer? 0 = some (.ok 0) ∧
      begun w.history = [0] := by
  have ends : ((Worker.idle 0).run? counting servedLate).map
      (fun w => (w.answer? 0, begun w.history)) = some (some (.ok 0), [0]) := by
    rfl
  obtain ⟨w, ran, same⟩ := Option.map_eq_some_iff.mp ends
  obtain ⟨answered, history⟩ := Prod.mk.inj same
  exact ⟨w, ran, answered, history⟩

end Reckoner.Worker
