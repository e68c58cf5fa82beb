/-!
The worker that runs the jobs of all callers one after the other, on a machine that it alone can reach.
Callers and the worker meet in a queue of bounded length, and each call has a place of its own for the
reply. Once the worker is told to stop, every caller that waits may give up and the worker may leave,
whichever comes first.
-/

namespace Reckoner

inductive WorkError where
  | stopped
  | crashed (reason : String)
  deriving Repr, DecidableEq, Inhabited

def WorkError.message : WorkError → String
  | .stopped => "worker stopped"
  | .crashed reason => reason

inductive CallPhase (α : Type) where
  | submitting
  | waiting
  | returned (answer : Except WorkError α)

/-- What the worker does. A job that has ended is still to be answered. -/
inductive WorkerPhase (α : Type) where
  | receiving
  | executing (job : Nat)
  | replying (job : Nat) (result : Except String α)
  | left

/-- What a job does to the machine, and what it gives: a value, or the reason of its crash. -/
abbrev Jobs (σ α : Type) := Nat → σ → Except String α × σ

inductive Moment (α : Type) where
  | began (job : Nat)
  | ended (job : Nat) (result : Except String α)

/-- A worker and its callers. The call of a job has the number of the job. -/
structure Worker (σ α : Type) where
  machine : σ
  phase : WorkerPhase α
  queue : List Nat
  stopped : Bool
  calls : Nat → Option (CallPhase α)
  /-- What callers can take. There is room for one reply to each. -/
  replies : Nat → Option (Except String α)
  history : List (Moment α)

namespace Worker

variable {σ α : Type}

def capacity : Nat := 64

def idle (machine : σ) : Worker σ α :=
  { machine, phase := .receiving, queue := [], stopped := false, calls := fun _ => none
    replies := fun _ => none, history := [] }

/-- One move. A call begins, puts its job in the queue, and takes its reply, or gives up because the
worker is stopped. The worker takes a job from the queue, ends it and hands over its result, until it
leaves because it is stopped. -/
inductive Event where
  | call (job : Nat)
  | submit (job : Nat)
  | giveUp (job : Nat)
  | collect (job : Nat)
  | receive
  | finish
  | reply
  | leave
  | stop
  deriving Repr, DecidableEq, Inhabited

def setCall (w : Worker σ α) (job : Nat) (phase : CallPhase α) : Worker σ α :=
  { w with calls := fun n => if n = job then some phase else w.calls n }

def setReply (w : Worker σ α) (job : Nat) (reply : Option (Except String α)) : Worker σ α :=
  { w with replies := fun n => if n = job then reply else w.replies n }

/-- The state after an event, if the event can happen. Of several events that can happen, any may
be the next. -/
def next? (jobs : Jobs σ α) (w : Worker σ α) : Event → Option (Worker σ α)
  | .call job =>
    match w.calls job with
    | none => some (w.setCall job .submitting)
    | some _ => none
  | .submit job =>
    match w.calls job with
    | some .submitting =>
      if w.queue.length < capacity then
        some ({ w with queue := w.queue ++ [job] }.setCall job .waiting)
      else none
    | _ => none
  | .giveUp job =>
    match w.calls job, w.stopped with
    | some .submitting, true | some .waiting, true =>
      some (w.setCall job (.returned (.error .stopped)))
    | _, _ => none
  | .collect job =>
    match w.calls job, w.replies job with
    | some .waiting, some result =>
      some ((w.setReply job none).setCall job (.returned (result.mapError .crashed)))
    | _, _ => none
  | .receive =>
    match w.phase, w.queue with
    | .receiving, job :: rest =>
      some { w with phase := .executing job, queue := rest, history := w.history ++ [.began job] }
    | _, _ => none
  | .finish =>
    match w.phase with
    | .executing job =>
      let (result, machine) := jobs job w.machine
      some
        { w with
          machine, phase := .replying job result, history := w.history ++ [.ended job result] }
    | _ => none
  | .reply =>
    match w.phase with
    | .replying job result =>
      match w.replies job with
      | none => some { w.setReply job (some result) with phase := .receiving }
      | some _ => none
    | _ => none
  | .leave =>
    match w.phase, w.stopped with
    | .receiving, true => some { w with phase := .left }
    | _, _ => none
  | .stop => some { w with stopped := true }

def run? (jobs : Jobs σ α) (w : Worker σ α) : List Event → Option (Worker σ α)
  | [] => some w
  | e :: rest => (w.next? jobs e).bind fun w => run? jobs w rest

def answer? (w : Worker σ α) (job : Nat) : Option (Except WorkError α) :=
  match w.calls job with
  | some (.returned answer) => some answer
  | _ => none

end Worker

end Reckoner
