import Mathlib.Data.List.Nodup
import Reckoner.Service.Worker

/-!
The worker executes jobs one after the other, each at most once, and answers each call with what its
own job gave. The facts hold of every order in which the worker and its callers can move.
-/

namespace Reckoner

namespace Moment

variable {α : Type}

def begun? : Moment α → Option Nat
  | .began job => some job
  | .ended _ _ => none

def begun (history : List (Moment α)) : List Nat :=
  history.filterMap begun?

@[simp] theorem begun_nil : begun ([] : List (Moment α)) = [] := rfl

@[simp] theorem begun_append (first second : List (Moment α)) :
    begun (first ++ second) = begun first ++ begun second :=
  List.filterMap_append

@[simp] theorem begun_began (job : Nat) (rest : List (Moment α)) :
    begun (.began job :: rest) = job :: begun rest := rfl

@[simp] theorem begun_ended (job : Nat) (result : Except String α) (rest : List (Moment α)) :
    begun (.ended job result :: rest) = begun rest := rfl

end Moment

open Moment (begun)

namespace WorkerPhase

variable {α : Type}

def job? : WorkerPhase α → Option Nat
  | .executing job | .replying job _ => some job
  | .receiving | .left => none

def opening : WorkerPhase α → List (Moment α)
  | .executing job => [.began job]
  | .receiving | .replying _ _ | .left => []

def exit? : WorkerPhase α → Option Worker.Event
  | .executing _ => some .finish
  | .replying _ _ => some .reply
  | .receiving | .left => none

end WorkerPhase

namespace Worker

variable {σ α : Type} {jobs : Jobs σ α} {start : σ} {w w' : Worker σ α} {events : List Event}

/-- Executions one after the other, each with what its job does to the machine that the execution
before it left, and the machine after the last. -/
inductive Serial (jobs : Jobs σ α) (start : σ) : List (Moment α) → σ → Prop
  | none : Serial jobs start [] start
  | more {history : List (Moment α)} {machine : σ} (job : Nat) :
      Serial jobs start history machine →
      Serial jobs start (history ++ [.began job, .ended job (jobs job machine).1])
        (jobs job machine).2

theorem Serial.began_of_ended {history : List (Moment α)} {machine : σ} {job : Nat}
    {result : Except String α} (serial : Serial jobs start history machine)
    (ended : .ended job result ∈ history) : job ∈ begun history := by
  induction serial with
  | none => cases ended
  | more other earlier ih =>
    simp only [List.mem_append, List.mem_cons, List.not_mem_nil, or_false] at ended
    rcases ended with ended | ended | ended
    · simp [ih ended]
    · cases ended
    · cases ended
      simp

/-! ## What each event can do -/

theorem next?_call {job : Nat} (step : w.next? jobs (.call job) = some w') :
    w.calls job = none ∧ w' = w.setCall job .submitting := by
  simp only [next?] at step
  split at step
  · next none => exact ⟨none, (Option.some.inj step).symm⟩
  · cases step

theorem next?_submit {job : Nat} (step : w.next? jobs (.submit job) = some w') :
    w.calls job = some .submitting ∧
      w' = { w with queue := w.queue ++ [job] }.setCall job .waiting := by
  simp only [next?] at step
  split at step
  · next submitting =>
    split at step
    · exact ⟨submitting, (Option.some.inj step).symm⟩
    · cases step
  · cases step

theorem next?_giveUp {job : Nat} (step : w.next? jobs (.giveUp job) = some w') :
    (w.calls job = some .submitting ∨ w.calls job = some .waiting) ∧ w.stopped = true ∧
      w' = w.setCall job (.returned (.error .stopped)) := by
  simp only [next?] at step
  split at step
  · next submitting stopped => exact ⟨.inl submitting, stopped, (Option.some.inj step).symm⟩
  · next waiting stopped => exact ⟨.inr waiting, stopped, (Option.some.inj step).symm⟩
  · cases step

theorem next?_collect {job : Nat} (step : w.next? jobs (.collect job) = some w') :
    ∃ result, w.calls job = some .waiting ∧ w.replies job = some result ∧
      w' = (w.setReply job none).setCall job (.returned (result.mapError .crashed)) := by
  simp only [next?] at step
  split at step
  · next result waiting replied => exact ⟨result, waiting, replied, (Option.some.inj step).symm⟩
  · cases step

theorem next?_receive (step : w.next? jobs .receive = some w') :
    ∃ job rest, w.phase = .receiving ∧ w.queue = job :: rest ∧
      w' = { w with
        phase := .executing job, queue := rest, history := w.history ++ [.began job] } := by
  simp only [next?] at step
  split at step
  · next job rest receiving queue =>
    exact ⟨job, rest, receiving, queue, (Option.some.inj step).symm⟩
  · cases step

theorem next?_finish (step : w.next? jobs .finish = some w') :
    ∃ job, w.phase = .executing job ∧
      w' = { w with
        machine := (jobs job w.machine).2, phase := .replying job (jobs job w.machine).1
        history := w.history ++ [.ended job (jobs job w.machine).1] } := by
  simp only [next?] at step
  split at step
  · next job executing => exact ⟨job, executing, (Option.some.inj step).symm⟩
  · cases step

theorem next?_reply (step : w.next? jobs .reply = some w') :
    ∃ job result, w.phase = .replying job result ∧ w.replies job = none ∧
      w' = { w.setReply job (some result) with phase := .receiving } := by
  simp only [next?] at step
  split at step
  · next job result replying =>
    split at step
    · next none => exact ⟨job, result, replying, none, (Option.some.inj step).symm⟩
    · cases step
  · cases step

theorem next?_leave (step : w.next? jobs .leave = some w') :
    w.phase = .receiving ∧ w.stopped = true ∧ w' = { w with phase := .left } := by
  simp only [next?] at step
  split at step
  · next receiving stopped => exact ⟨receiving, stopped, (Option.some.inj step).symm⟩
  · cases step

theorem next?_stop (step : w.next? jobs .stop = some w') : w' = { w with stopped := true } :=
  (Option.some.inj step).symm

/-! ## What every reachable state satisfies -/

@[simp] theorem setCall_calls (w : Worker σ α) (job other : Nat) (phase : CallPhase α) :
    (w.setCall job phase).calls other = if other = job then some phase else w.calls other := rfl

@[simp] theorem setReply_replies (w : Worker σ α) (job other : Nat)
    (reply : Option (Except String α)) :
    (w.setReply job reply).replies other = if other = job then reply else w.replies other := rfl

def Handed (w : Worker σ α) (job : Nat) : Prop :=
  w.calls job = some .waiting ∨ ∃ answer, w.calls job = some (.returned answer)

/-- An answer that a call can have got: the worker is stopped, or the answer is the result of an
execution of its own job. -/
def Earned (w : Worker σ α) (job : Nat) (answer : Except WorkError α) : Prop :=
  answer = .error .stopped ∧ w.stopped = true ∨
    ∃ result, .ended job result ∈ w.history ∧ answer = result.mapError .crashed

theorem Earned.later {job : Nat} {answer : Except WorkError α} (earned : w.Earned job answer)
    (stays : w.stopped = true → w'.stopped = true)
    (history : ∀ moment ∈ w.history, moment ∈ w'.history) : w'.Earned job answer := by
  rcases earned with ⟨refused, stopped⟩ | ⟨result, ended, same⟩
  · exact .inl ⟨refused, stays stopped⟩
  · exact .inr ⟨result, history _ ended, same⟩

/-- What the worker and its callers keep. The history is one of executions in a row, no job is
twice in it and the queue, and each reply and answer is about an execution of its own job. -/
structure Sound (jobs : Jobs σ α) (start : σ) (w : Worker σ α) : Prop where
  serial : ∃ done, Serial jobs start done w.machine ∧ w.history = done ++ w.phase.opening
  once : (begun w.history ++ w.queue).Nodup
  handed : ∀ job ∈ begun w.history ++ w.queue, w.Handed job
  replied : ∀ job result, w.replies job = some result → .ended job result ∈ w.history
  replying : ∀ job result, w.phase = .replying job result → .ended job result ∈ w.history
  unanswered : ∀ job, w.phase.job? = some job → w.replies job = none
  earned : ∀ job answer, w.calls job = some (.returned answer) → w.Earned job answer

theorem Sound.idle (jobs : Jobs σ α) (start : σ) : Sound jobs start (idle start) where
  serial := ⟨[], .none, rfl⟩
  once := List.nodup_nil
  handed := by intro job inside; cases inside
  replied := by intro job result replied; cases replied
  replying := by intro job result replying; cases replying
  unanswered := by intro job begun; cases begun
  earned := by intro job answer returned; cases returned

theorem Sound.began_of_ended (sound : Sound jobs start w) {job : Nat} {result : Except String α}
    (ended : .ended job result ∈ w.history) : job ∈ begun w.history := by
  obtain ⟨done, serial, history⟩ := sound.serial
  rw [history, List.mem_append] at ended
  rw [history, Moment.begun_append, List.mem_append]
  rcases ended with ended | ended
  · exact .inl (serial.began_of_ended ended)
  · cases phase : w.phase <;> simp [phase, WorkerPhase.opening] at ended

theorem Sound.fresh (sound : Sound jobs start w) {job : Nat}
    (early : w.calls job = none ∨ w.calls job = some .submitting) :
    job ∉ begun w.history ++ w.queue := by
  intro inside
  rcases sound.handed job inside with waiting | ⟨answer, returned⟩
  · rcases early with early | early
    · cases early.symm.trans waiting
    · cases early.symm.trans waiting
  · rcases early with early | early
    · cases early.symm.trans returned
    · cases early.symm.trans returned

theorem Sound.setCall (sound : Sound jobs start w) {job : Nat} {phase : CallPhase α}
    (handed : job ∈ begun w.history ++ w.queue → (w.setCall job phase).Handed job)
    (earned : ∀ answer, phase = .returned answer → w.Earned job answer) :
    Sound jobs start (w.setCall job phase) := by
  refine { sound with handed := ?_, earned := ?_ }
  · intro other inside
    by_cases same : other = job
    · subst same
      exact handed inside
    · simpa [Handed, same] using sound.handed other inside
  · intro other answer returned
    rw [setCall_calls] at returned
    by_cases same : other = job
    · subst same
      rw [if_pos rfl] at returned
      exact earned answer (Option.some.inj returned)
    · rw [if_neg same] at returned
      exact sound.earned other answer returned

theorem Sound.call {job : Nat} (sound : Sound jobs start w)
    (step : w.next? jobs (.call job) = some w') : Sound jobs start w' := by
  obtain ⟨absent, rfl⟩ := next?_call step
  apply sound.setCall
  · intro inside
    exact absurd inside (sound.fresh (.inl absent))
  · intro answer returned
    cases returned

theorem Sound.submit {job : Nat} (sound : Sound jobs start w)
    (step : w.next? jobs (.submit job) = some w') : Sound jobs start w' := by
  obtain ⟨submitting, rfl⟩ := next?_submit step
  have fresh := sound.fresh (.inr submitting)
  have waiting : (w.setCall job .waiting).Handed job := .inl (by simp)
  have moved : Sound jobs start (w.setCall job .waiting) := by
    apply sound.setCall
    · intro inside
      exact waiting
    · intro answer returned
      cases returned
  refine { moved with once := ?_, handed := ?_ }
  · have once : (begun w.history ++ w.queue ++ [job]).Nodup :=
      sound.once.append (List.nodup_singleton job) (by simpa using fresh)
    rwa [List.append_assoc] at once
  · intro other inside
    have inside : other ∈ begun w.history ++ w.queue ++ [job] := by
      rwa [List.append_assoc]
    rcases List.mem_append.mp inside with earlier | last
    · exact moved.handed other earlier
    · rw [List.mem_singleton.mp last]
      exact waiting

theorem Sound.giveUp {job : Nat} (sound : Sound jobs start w)
    (step : w.next? jobs (.giveUp job) = some w') : Sound jobs start w' := by
  obtain ⟨-, stopped, rfl⟩ := next?_giveUp step
  apply sound.setCall
  · intro inside
    exact .inr ⟨_, by simp; rfl⟩
  · intro answer returned
    cases returned
    exact .inl ⟨rfl, stopped⟩

theorem Sound.collect {job : Nat} (sound : Sound jobs start w)
    (step : w.next? jobs (.collect job) = some w') : Sound jobs start w' := by
  obtain ⟨result, waiting, replied, rfl⟩ := next?_collect step
  have emptied : Sound jobs start (w.setReply job none) := by
    refine { sound with replied := ?_, unanswered := ?_ }
    · intro other given kept
      by_cases same : other = job
      · simp [same] at kept
      · exact sound.replied other given (by simpa [same] using kept)
    · intro other begun
      by_cases same : other = job
      · simp [same]
      · simpa [same] using sound.unanswered other begun
  apply emptied.setCall
  · intro inside
    exact .inr ⟨_, by simp; rfl⟩
  · intro answer returned
    cases returned
    exact .inr ⟨result, sound.replied job result replied, rfl⟩

theorem Sound.receive (sound : Sound jobs start w)
    (step : w.next? jobs .receive = some w') : Sound jobs start w' := by
  obtain ⟨job, rest, receiving, queue, rfl⟩ := next?_receive step
  obtain ⟨done, serial, history⟩ := sound.serial
  have whole : begun w.history ++ w.queue = begun (w.history ++ [.began job]) ++ rest := by
    simp [queue]
  have fresh : job ∉ begun w.history := by
    intro earlier
    have apart := (List.nodup_append'.mp sound.once).2.2
    exact apart earlier (by simp [queue])
  exact
    { serial := ⟨done, serial, by simp [history, receiving, WorkerPhase.opening]⟩
      once := whole ▸ sound.once
      handed := by
        intro other inside
        exact sound.handed other (whole ▸ inside)
      replied := by
        intro other result replied
        exact List.mem_append_left _ (sound.replied other result replied)
      replying := by intro other result replying; cases replying
      unanswered := by
        intro other executing
        cases executing
        by_contra answered
        obtain ⟨result, replied⟩ := Option.ne_none_iff_exists'.mp answered
        exact fresh (sound.began_of_ended (sound.replied _ result replied))
      earned := by
        intro other answer returned
        exact (sound.earned other answer returned).later id fun _ => List.mem_append_left _ }

theorem Sound.finish (sound : Sound jobs start w)
    (step : w.next? jobs .finish = some w') : Sound jobs start w' := by
  obtain ⟨job, executing, rfl⟩ := next?_finish step
  obtain ⟨done, serial, history⟩ := sound.serial
  exact
    { serial := ⟨_, serial.more job, by simp [history, executing, WorkerPhase.opening]⟩
      once := by simpa using sound.once
      handed := by
        intro other inside
        exact sound.handed other (by simpa using inside)
      replied := by
        intro other result replied
        exact List.mem_append_left _ (sound.replied other result replied)
      replying := by
        intro other result replying
        cases replying
        simp
      unanswered := by
        intro other replying
        cases replying
        exact sound.unanswered job (by simp [executing, WorkerPhase.job?])
      earned := by
        intro other answer returned
        exact (sound.earned other answer returned).later id fun _ => List.mem_append_left _ }

theorem Sound.reply (sound : Sound jobs start w)
    (step : w.next? jobs .reply = some w') : Sound jobs start w' := by
  obtain ⟨job, result, replying, -, rfl⟩ := next?_reply step
  obtain ⟨done, serial, history⟩ := sound.serial
  refine
    { sound with
      serial := ⟨done, serial, by simpa [setReply, replying, WorkerPhase.opening] using history⟩
      replied := ?_
      replying := ?_
      unanswered := ?_ }
  · intro other given replied
    by_cases same : other = job
    · have given : some result = some given := by simpa [same] using replied
      rw [same, ← Option.some.inj given]
      exact sound.replying job result replying
    · exact sound.replied other given (by simpa [same] using replied)
  · intro other given replying
    cases replying
  · intro other begun
    cases begun

theorem Sound.leave (sound : Sound jobs start w)
    (step : w.next? jobs .leave = some w') : Sound jobs start w' := by
  obtain ⟨receiving, -, rfl⟩ := next?_leave step
  obtain ⟨done, serial, history⟩ := sound.serial
  exact
    { sound with
      serial := ⟨done, serial, by simpa [receiving, WorkerPhase.opening] using history⟩
      replying := by intro other given replying; cases replying
      unanswered := by intro other begun; cases begun }

theorem Sound.stop (sound : Sound jobs start w)
    (step : w.next? jobs .stop = some w') : Sound jobs start w' := by
  have stopped := next?_stop step
  subst stopped
  refine { sound with earned := ?_ }
  intro job answer returned
  exact (sound.earned job answer returned).later (fun _ => rfl) fun _ => id

theorem Sound.next? {event : Event} (sound : Sound jobs start w)
    (step : w.next? jobs event = some w') : Sound jobs start w' := by
  cases event with
  | call job => exact sound.call step
  | submit job => exact sound.submit step
  | giveUp job => exact sound.giveUp step
  | collect job => exact sound.collect step
  | receive => exact sound.receive step
  | finish => exact sound.finish step
  | reply => exact sound.reply step
  | leave => exact sound.leave step
  | stop => exact sound.stop step

theorem answer?_eq {job : Nat} {answer : Except WorkError α} (answered : w.answer? job = some answer) :
    w.calls job = some (.returned answer) := by
  simp only [answer?] at answered
  split at answered
  · next returned =>
    rw [returned, Option.some.inj answered]
  · cases answered

theorem run?_cons {event : Event} (ran : w.run? jobs (event :: events) = some w') :
    ∃ next, w.next? jobs event = some next ∧ next.run? jobs events = some w' :=
  Option.bind_eq_some_iff.mp ran

theorem Sound.run? (sound : Sound jobs start w) (ran : w.run? jobs events = some w') :
    Sound jobs start w' := by
  induction events generalizing w with
  | nil =>
    cases ran
    exact sound
  | cons event rest ih =>
    obtain ⟨next, step, ran⟩ := run?_cons ran
    exact ih (sound.next? step) ran

theorem next?_stopped {event : Event} (other : event ≠ .stop)
    (step : w.next? jobs event = some w') : w'.stopped = w.stopped := by
  cases event with
  | call job =>
    obtain ⟨-, rfl⟩ := next?_call step
    rfl
  | submit job =>
    obtain ⟨-, rfl⟩ := next?_submit step
    rfl
  | giveUp job =>
    obtain ⟨-, -, rfl⟩ := next?_giveUp step
    rfl
  | collect job =>
    obtain ⟨result, -, -, rfl⟩ := next?_collect step
    rfl
  | receive =>
    obtain ⟨job, rest, -, -, rfl⟩ := next?_receive step
    rfl
  | finish =>
    obtain ⟨job, -, rfl⟩ := next?_finish step
    rfl
  | reply =>
    obtain ⟨job, result, -, -, rfl⟩ := next?_reply step
    rfl
  | leave =>
    obtain ⟨-, -, rfl⟩ := next?_leave step
    rfl
  | stop => exact absurd rfl other

theorem stop_of_stopped (ran : w.run? jobs events = some w') (stopped : w'.stopped = true)
    (runs : w.stopped = false) : .stop ∈ events := by
  induction events generalizing w with
  | nil =>
    cases ran
    cases runs.symm.trans stopped
  | cons event rest ih =>
    obtain ⟨next, step, ran⟩ := run?_cons ran
    by_cases told : event = .stop
    · simp [told]
    · apply List.mem_cons_of_mem
      apply ih ran
      rw [next?_stopped told step]
      exact runs

/-! ## After a job the worker takes the next -/

def GoesOn (w w' : Worker σ α) : Prop :=
  w'.phase = w.phase ∧ w.queue <+: w'.queue

theorem GoesOn.trans {middle : Worker σ α} (first : GoesOn w middle) (second : GoesOn middle w') :
    GoesOn w w' :=
  ⟨second.1.trans first.1, first.2.trans second.2⟩

theorem next?_goesOn {event exit : Event} (busy : w.phase.exit? = some exit)
    (other : event ≠ exit) (step : w.next? jobs event = some w') : GoesOn w w' := by
  cases event with
  | call job =>
    obtain ⟨-, rfl⟩ := next?_call step
    exact ⟨rfl, List.prefix_rfl⟩
  | submit job =>
    obtain ⟨-, rfl⟩ := next?_submit step
    exact ⟨rfl, List.prefix_append _ _⟩
  | giveUp job =>
    obtain ⟨-, -, rfl⟩ := next?_giveUp step
    exact ⟨rfl, List.prefix_rfl⟩
  | collect job =>
    obtain ⟨result, -, -, rfl⟩ := next?_collect step
    exact ⟨rfl, List.prefix_rfl⟩
  | receive =>
    obtain ⟨job, rest, receiving, -⟩ := next?_receive step
    simp [receiving, WorkerPhase.exit?] at busy
  | finish =>
    obtain ⟨job, executing, -⟩ := next?_finish step
    simp [executing, WorkerPhase.exit?] at busy
    exact absurd busy other
  | reply =>
    obtain ⟨job, result, replying, -⟩ := next?_reply step
    simp [replying, WorkerPhase.exit?] at busy
    exact absurd busy other
  | leave =>
    obtain ⟨receiving, -⟩ := next?_leave step
    simp [receiving, WorkerPhase.exit?] at busy
  | stop =>
    have stopped := next?_stop step
    subst stopped
    exact ⟨rfl, List.prefix_rfl⟩

theorem run?_goesOn {exit : Event} (busy : w.phase.exit? = some exit) (other : exit ∉ events)
    (ran : w.run? jobs events = some w') : GoesOn w w' := by
  induction events generalizing w with
  | nil =>
    cases ran
    exact ⟨rfl, List.prefix_rfl⟩
  | cons event rest ih =>
    obtain ⟨next, step, ran⟩ := run?_cons ran
    simp only [List.mem_cons, not_or] at other
    have first := next?_goesOn busy (Ne.symm other.1) step
    have later := ih (first.1 ▸ busy) other.2 ran
    exact first.trans later

/-- A worker that has begun a job ends it, hands over the result and receives again. Before the end
and between the end and the reply callers may do anything, and what was in the queue stays at its
front. -/
def Recovers (jobs : Jobs σ α) (w : Worker σ α) : Prop :=
  ∀ job, w.phase = .executing job →
    ∀ before u, .finish ∉ before → w.run? jobs before = some u →
      ∃ done, u.next? jobs .finish = some done ∧
        ∀ between v, .reply ∉ between → done.run? jobs between = some v →
          ∃ next, v.next? jobs .reply = some next ∧
            next.replies job = some (jobs job u.machine).1 ∧
            next.phase = .receiving ∧ w.queue <+: next.queue

theorem Sound.recovers (sound : Sound jobs start w) : w.Recovers jobs := by
  intro job executing before u unfinished ran
  have going : GoesOn w u := run?_goesOn (by rw [executing]; rfl) unfinished ran
  have still : u.phase = .executing job := going.1.trans executing
  obtain ⟨done, step⟩ : ∃ done, u.next? jobs .finish = some done := by
    simp [Worker.next?, still]
  refine ⟨done, step, ?_⟩
  intro between v unreplied later
  have ended := (sound.run? ran).next? step
  have replying : done.phase = .replying job (jobs job u.machine).1 ∧ done.queue = u.queue := by
    obtain ⟨same, begun, rfl⟩ := next?_finish step
    cases still.symm.trans begun
    exact ⟨rfl, rfl⟩
  have waits : GoesOn done v := run?_goesOn (by rw [replying.1]; rfl) unreplied later
  have phase : v.phase = .replying job (jobs job u.machine).1 := waits.1.trans replying.1
  have room : v.replies job = none :=
    (ended.run? later).unanswered job (by rw [phase]; rfl)
  refine ⟨_, by simp only [Worker.next?, phase, room]; rfl, by simp, rfl, ?_⟩
  exact going.2.trans (replying.2 ▸ waits.2)

/-! ## The worker as a whole -/

/-- In every order of events the executions are one after the other, no job is executed twice, a
call that does not find the worker stopped gets the result of the one execution of its job, the
worker goes on after each job, and it is found stopped only if it was told to stop. -/
theorem worker_serialises (jobs : Jobs σ α) (start : σ)
    (ran : (Worker.idle start).run? jobs events = some w) :
    (∃ done, Serial jobs start done w.machine ∧ w.history = done ++ w.phase.opening) ∧
      (∀ job, (begun w.history).count job ≤ 1) ∧
      (∀ job answer, w.answer? job = some answer → answer ≠ .error .stopped →
        (begun w.history).count job = 1 ∧
          ∃ result, .ended job result ∈ w.history ∧ answer = result.mapError .crashed) ∧
      w.Recovers jobs ∧
      ∀ job, w.answer? job = some (.error .stopped) → .stop ∈ events := by
  have sound := (Sound.idle jobs start).run? ran
  have once : (begun w.history).Nodup := (List.nodup_append'.mp sound.once).1
  refine ⟨sound.serial, List.nodup_iff_count_le_one.mp once, ?_, sound.recovers, ?_⟩
  · intro job answer answered unstopped
    rcases sound.earned job answer (answer?_eq answered) with ⟨stopped, -⟩ | ⟨result, ended, same⟩
    · exact absurd stopped unstopped
    · exact ⟨List.count_eq_one_of_mem once (sound.began_of_ended ended), result, ended, same⟩
  · intro job answered
    rcases sound.earned job _ (answer?_eq answered) with ⟨-, stopped⟩ | ⟨result, -, same⟩
    · exact stop_of_stopped ran stopped rfl
    · cases result with
      | ok value => cases same
      | error reason => cases same

def counting : Jobs Nat Nat := fun job n =>
  if job = 1 then (.error "boom", n + 1) else (.ok n, n + 1)

/-- Three jobs wait in the queue. The second crashes, and the worker is stopped before the third. -/
def stoppedEarly : List Event :=
  [.call 0, .call 1, .call 2, .submit 0, .submit 1, .submit 2, .receive, .finish, .reply, .receive,
    .collect 0, .finish, .reply, .collect 1, .stop, .giveUp 2]

theorem worker_serialises_crash :
    ∃ w, (Worker.idle 0).run? counting stoppedEarly = some w ∧
      w.answer? 1 = some (.error (.crashed "boom")) ∧ w.answer? 2 = some (.error .stopped) ∧
      (begun w.history).count 1 = 1 ∧ .ended 1 (.error "boom") ∈ w.history ∧
      .stop ∈ stoppedEarly := by
  have ends : ((Worker.idle 0).run? counting stoppedEarly).map
      (fun w => (w.answer? 1, w.answer? 2)) =
        some (some (.error (.crashed "boom")), some (.error .stopped)) := by
    rfl
  obtain ⟨w, ran, answers⟩ := Option.map_eq_some_iff.mp ends
  obtain ⟨crashed, refused⟩ := Prod.mk.inj answers
  obtain ⟨-, -, answered, -, stopped⟩ := worker_serialises counting 0 ran
  obtain ⟨once, result, ended, same⟩ := answered 1 _ crashed (by simp)
  refine ⟨w, ran, crashed, refused, once, ?_, stopped 2 refused⟩
  cases result with
  | ok value => cases same
  | error reason =>
    cases same
    exact ended

end Worker

end Reckoner
