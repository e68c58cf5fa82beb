import Reckoner.Machine.Run
import Reckoner.Proofs.Machine.Stack

/-!
Fetching instructions. What is read at the instruction pointer decides which operation a step runs;
fetching changes nothing that an operation can see but the pointer itself.
-/

namespace Reckoner

def Frame.fetch (frame : Frame) (op : Operation) : Frame :=
  { frame with last := frame.ip, ip := frame.ip + 1 + op.operand.width }

namespace Machine

def fetch (m : Machine) (frame : Frame) (rest : List Frame) (op : Operation) : Machine :=
  { { m with count := m.count + 1 }.noteTrace { frame with last := frame.ip } op.byte with
    frames := frame.fetch op :: rest }

section

variable (m : Machine) (frame : Frame) (rest : List Frame) (op : Operation)

@[simp] theorem fetch_frames : (m.fetch frame rest op).frames = frame.fetch op :: rest := rfl

@[simp] theorem fetch_stack : (m.fetch frame rest op).stack = m.stack := by
  rw [fetch, noteTrace]
  split <;> rfl

@[simp] theorem fetch_globals : (m.fetch frame rest op).globals = m.globals := by
  rw [fetch, noteTrace]
  split <;> rfl

@[simp] theorem fetch_maxFrames : (m.fetch frame rest op).maxFrames = m.maxFrames := by
  rw [fetch, noteTrace]
  split <;> rfl

@[simp] theorem fetch_written : (m.fetch frame rest op).written = m.written := by
  rw [fetch, noteTrace]
  split <;> rfl

@[simp] theorem fetch_world : (m.fetch frame rest op).world = m.world := by
  rw [fetch, noteTrace]
  split <;> rfl

@[simp] theorem fetch_values : (m.fetch frame rest op).values = m.values := by
  rw [values, fetch_stack]
  rfl

end

theorem step_eq {host : Host} {m : Machine} {frame : Frame} {rest : List Frame} {op : Operation}
    {operand : Nat} (frames : m.frames = frame :: rest)
    (byte : byteAt? frame.routine frame.ip = some op.byte)
    (read : frame.routine.operandAt? (frame.ip.toNat + 1) op.operand.width = some operand) :
    m.step host = execute host (m.fetch frame rest op) (frame.fetch op) op operand := by
  rw [step, frames]
  simp only [byte, Operation.ofByte?_byte, read, fetch, Frame.fetch, frames]

def handed (m : Machine) (frame : Frame) (rest : List Frame) (v : Value) : Machine :=
  { m with frames := rest, stack := (m.stack.below v).resize frame.base }

theorem values_handed {m : Machine} {xs : List Value} {v : Value} (frame : Frame)
    (rest : List Frame) (whole : m.values = xs ++ [v]) (bound : frame.base ≤ xs.length) :
    (m.handed frame rest v).values = xs.take frame.base := by
  have below : (m.stack.below v).values = xs := Stack.values_below whole v
  rw [handed, values, Stack.values_resize, below]
  rw [← Stack.length_values, below]
  exact bound

section

variable {m : Machine} {frame : Frame} {rest : List Frame} {xs : List Value} {v : Value}
  (frames : m.frames = frame :: rest) (whole : m.values = xs ++ [v])

include frames whole

theorem leave_eq :
    m.leave =
      match (m.handed frame rest v).pushOn v with
      | .next m => if m.isRunning then .next m else .finished m
      | other => other := by
  rw [leave, popThen_eq whole, show (m.withStack (m.stack.below v)).frames = frame :: rest from frames]
  rfl

theorem leave_full (full : ¬(m.handed frame rest v).HasRoom) :
    m.leave = (m.handed frame rest v).raise .stackFull := by
  rw [leave_eq frames whole, pushOn_full full]
  rfl

theorem leave_room (room : (m.handed frame rest v).HasRoom) :
    m.leave =
      let after := (m.handed frame rest v).withStack ((m.handed frame rest v).stack.push v)
      if rest.isEmpty then .finished after else .next after := by
  rw [leave_eq frames whole, pushOn_eq room]
  cases rest <;> rfl

end

end Machine

end Reckoner
