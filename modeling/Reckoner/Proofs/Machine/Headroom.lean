import Reckoner.Proofs.Machine.Bounds

/-!
Machines with more room. A step that would go beyond the limits with more room reports the limit it
meets. Every other step is what it would be with more room.
-/

namespace Reckoner

def Machine.limited (n : Nat) (m : Machine) : Machine := { m with maxFrames := n }

namespace Step

def limited (n : Nat) : Step → Step
  | .next m => .next (m.limited n)
  | .finished m => .finished (m.limited n)
  | .fault f m => .fault f (m.limited n)
  | .crash reason m => .crash reason (m.limited n)
  | .exhausted m => .exhausted (m.limited n)

def Overflows : Step → Prop
  | .fault f _ => f.cause = .callDepth ∨ f.cause = .stackFull
  | _ => False

/-- The first step is the second with another limit, or reports the limit. -/
def Cuts (n : Nat) (x y : Step) : Prop := x.Overflows ∨ x = y.limited n

def settled : Step → Step
  | .next m => if m.isRunning then .next m else .finished m
  | other => other

theorem Cuts.settled {n : Nat} {x y : Step} (cuts : x.Cuts n y) : x.settled.Cuts n y.settled := by
  rcases cuts with overflows | rfl
  · left
    cases x with
    | fault f m => exact overflows
    | _ => exact overflows.elim
  · right
    cases y with
    | next m =>
        have same : (m.limited n).isRunning = m.isRunning := rfl
        simp only [Step.limited, Step.settled, same]
        split <;> rfl
    | _ => rfl

theorem Overflows.message {step : Step} (overflows : step.Overflows) :
    ∃ f after, step = .fault f after ∧
      (f.message = "Stack overflow" ∨ f.message = "Value stack overflow") := by
  cases step with
  | fault f after =>
      refine ⟨f, after, rfl, ?_⟩
      rw [Fault.message]
      rcases overflows with depth | full
      · rw [depth]
        exact .inl rfl
      · rw [full]
        exact .inr rfl
  | _ => exact overflows.elim

end Step

namespace Machine

section

variable {n : Nat} {m : Machine} (tight : n ≤ m.maxFrames)

theorem raise_cuts (cause : Cause) : ((m.limited n).raise cause).Cuts n (m.raise cause) := .inr rfl

theorem peekThen_cuts {distance : Nat} {f g : Value → Step}
    (goes : ∀ v, m.peek distance = .ok v → (f v).Cuts n (g v)) :
    ((m.limited n).peekThen distance f).Cuts n (m.peekThen distance g) := by
  have same : (m.limited n).peek distance = m.peek distance := rfl
  rw [peekThen, peekThen, same]
  cases peeked : m.peek distance with
  | error cause => exact raise_cuts cause
  | ok v => exact goes v peeked

theorem popThen_cuts {f g : Value → Machine → Step}
    (goes : ∀ v after, after.maxFrames = m.maxFrames → (f v (after.limited n)).Cuts n (g v after)) :
    ((m.limited n).popThen f).Cuts n (m.popThen g) := by
  have same : (m.limited n).stack = m.stack := rfl
  rw [popThen, popThen, pop, pop, same]
  cases m.stack.top? with
  | none => exact raise_cuts .stackEmpty
  | some v => exact goes v { m with stack := m.stack.below v } rfl

theorem twoNumbers_cuts {f g : Decimal → Decimal → Step} (goes : ∀ x y, (f x y).Cuts n (g x y)) :
    ((m.limited n).twoNumbers f).Cuts n (m.twoNumbers g) := by
  refine peekThen_cuts fun b _ => peekThen_cuts fun a _ => ?_
  split
  · exact goes _ _
  · exact raise_cuts _

theorem jumpBy_limited (distance : Int) :
    (m.limited n).jumpBy distance = (m.jumpBy distance).limited n := by
  rw [jumpBy, jumpBy, limited]
  dsimp only
  split <;> rfl

theorem fetch_limited (frame : Frame) (rest : List Frame) (op : Operation) :
    (m.limited n).fetch frame rest op = (m.fetch frame rest op).limited n := by
  simp only [fetch, limited, noteTrace]
  split <;> rfl

include tight

theorem pushOn_cuts (v : Value) : ((m.limited n).pushOn v).Cuts n (m.pushOn v) := by
  by_cases room : (m.limited n).HasRoom
  · have roomier : m.HasRoom := by
      have wider := Nat.mul_le_mul_right slotsPerFrame tight
      simp only [HasRoom, maxHeight, limited, height] at room ⊢
      omega
    rw [pushOn_eq room, pushOn_eq roomier]
    exact .inr rfl
  · rw [pushOn_full room]
    exact .inl (.inr rfl)

theorem replaceTwo_cuts (v : Value) : ((m.limited n).replaceTwo v).Cuts n (m.replaceTwo v) :=
  pushOn_cuts (m := { m with stack := m.stack.resize (m.height - 2) }) tight v

theorem arithmetic_cuts (f : Decimal → Decimal → Except ArithmeticError Decimal) :
    ((m.limited n).arithmetic f).Cuts n (m.arithmetic f) := by
  refine twoNumbers_cuts fun x y => ?_
  split
  · exact replaceTwo_cuts tight _
  · exact raise_cuts _

theorem enter_cuts (r : Routine) (count : Nat) :
    ((m.limited n).enter r count).Cuts n (m.enter r count) := by
  rw [enter, enter]
  by_cases arity : r.arity ≠ count
  · rw [if_pos arity, if_pos arity]
    exact raise_cuts _
  · rw [if_neg arity, if_neg arity]
    by_cases deep : n ≤ m.frames.length
    · rw [if_pos (show (m.limited n).maxFrames ≤ (m.limited n).frames.length from deep)]
      exact .inl (.inl rfl)
    · rw [if_neg (show ¬(m.limited n).maxFrames ≤ (m.limited n).frames.length from deep),
        if_neg (by omega)]
      exact .inr rfl

theorem leave_cuts : (m.limited n).leave.Cuts n m.leave := by
  refine popThen_cuts fun v after same => ?_
  cases frames : after.frames with
  | nil =>
      have none : (after.limited n).frames = [] := frames
      simp only [none]
      exact .inr rfl
  | cons frame rest =>
      have outer : (after.limited n).frames = frame :: rest := frames
      have handed := pushOn_cuts (m := { after with
        frames := rest, stack := after.stack.resize frame.base }) (same ▸ tight) v
      simp only [outer]
      exact handed.settled

theorem execute_cuts (host : Host) (frame : Frame) (op : Operation) (operand : Nat)
    (scripted : op = .call → ∀ k, m.peek operand ≠ .ok (.native k)) :
    (execute host (m.limited n) frame op operand).Cuts n (execute host m frame op operand) := by
  cases op with
  | true | false => exact pushOn_cuts tight _
  | constant =>
      rw [execute, execute]
      split
      · exact pushOn_cuts tight _
      · exact .inr rfl
  | pop => exact popThen_cuts fun v after _ => .inr rfl
  | popN =>
      rw [execute, execute, dropOn, dropOn]
      have height : (m.limited n).height = m.height := rfl
      rw [height]
      split <;> exact .inr rfl
  | loadGlobal =>
      rw [execute, execute]
      split
      · exact .inr rfl
      · rename_i name _
        have same : (m.limited n).global? name = m.global? name := rfl
        rw [same]
        cases m.global? name with
        | none => exact .inr rfl
        | some v => exact pushOn_cuts tight v
  | assignGlobal =>
      rw [execute, execute]
      split
      · exact .inr rfl
      · rename_i name _
        have same : (m.limited n).global? name = m.global? name := rfl
        rw [same]
        cases m.global? name with
        | none => exact .inr rfl
        | some v => exact peekThen_cuts fun w _ => .inr rfl
  | defineGlobal =>
      rw [execute, execute]
      split
      · exact .inr rfl
      · exact popThen_cuts fun v after _ => .inr rfl
  | loadLocal =>
      rw [execute, execute]
      have same : (m.limited n).stack = m.stack := rfl
      rw [same]
      split
      · exact pushOn_cuts tight _
      · exact .inr rfl
  | assignLocal =>
      refine peekThen_cuts fun v _ => ?_
      have height : (m.limited n).height = m.height := rfl
      rw [height]
      split <;> exact .inr rfl
  | equal =>
      refine popThen_cuts fun b one first => popThen_cuts fun a two second => ?_
      exact pushOn_cuts (second.trans first ▸ tight) _
  | greater | less => exact twoNumbers_cuts fun x y => replaceTwo_cuts tight _
  | add | subtract | multiply | divide | exponent | modulo => exact arithmetic_cuts tight _
  | negate =>
      refine peekThen_cuts fun v _ => ?_
      cases v <;> exact .inr rfl
  | not => exact popThen_cuts fun v after same => pushOn_cuts (same ▸ tight) _
  | print => exact popThen_cuts fun v after _ => .inr rfl
  | jump | loop =>
      rw [execute, execute, jumpBy_limited]
      exact .inr rfl
  | jumpIfFalse =>
      refine peekThen_cuts fun v _ => ?_
      rw [jumpBy_limited]
      cases v.falsey <;> exact .inr rfl
  | call =>
      refine peekThen_cuts fun callee peeked => ?_
      cases callee with
      | routine r => exact enter_cuts tight r operand
      | native k => exact absurd peeked (scripted rfl k)
      | _ => exact raise_cuts _
  | «return» => exact leave_cuts tight

end

def CallsNative (m : Machine) : Prop :=
  ∃ frame rest operand k, m.frames = frame :: rest ∧
    byteAt? frame.routine frame.ip = some Operation.call.byte ∧
    frame.routine.operandAt? (frame.ip.toNat + 1) Operation.call.operand.width = some operand ∧
    m.peek operand = .ok (.native k)

/-- A tighter limit changes a step only by being reported. -/
theorem step_cuts (host : Host) {n : Nat} {m : Machine} (tight : n ≤ m.maxFrames)
    (scripted : ¬m.CallsNative) : ((m.limited n).step host).Cuts n (m.step host) := by
  have same : (m.limited n).frames = m.frames := rfl
  cases frames : m.frames with
  | nil =>
      rw [step, step, same, frames]
      exact .inr rfl
  | cons frame rest =>
      cases byte : byteAt? frame.routine frame.ip with
      | none =>
          simp only [step, same, frames, byte]
          exact .inr rfl
      | some b =>
          cases known : Operation.ofByte? b with
          | none =>
              simp only [step, limited, frames, byte, known, noteTrace]
              split <;> exact .inr rfl
          | some op =>
              obtain rfl := Operation.byte_of_known known
              cases read : frame.routine.operandAt? (frame.ip.toNat + 1) op.operand.width with
              | none =>
                  simp only [step, limited, frames, byte, known, read, noteTrace]
                  split <;> exact .inr rfl
              | some operand =>
                  rw [step_eq (same.trans frames) byte read, step_eq frames byte read, fetch_limited]
                  refine execute_cuts ?_ host _ op operand ?_
                  · rw [fetch_maxFrames]
                    exact tight
                  · rintro rfl k peeked
                    refine scripted ⟨frame, rest, operand, k, frames, byte, read, ?_⟩
                    rwa [peek, fetch_stack] at peeked

theorem callNative_low {host : Host} {m after : Machine} {k : Native} {count : Nat}
    (present : count < m.height) (went : m.callNative (performBusy host) k count = .next after) :
    after.height ≤ m.height ∧ after.frames = m.frames := by
  rw [callNative] at went
  split at went
  · cases went
  · have performed := perform_meets (m := m) (host k (m.stack.top count)) (fun _ => trivial)
      (host k (m.stack.top count)).vouches_any
    dsimp only at went
    rw [performBusy] at went
    generalize (host k (m.stack.top count)).perform _ _ m = ending at performed went
    cases ending with
    | done v left =>
        have low := left.stack.height_resize (m.height - count - 1)
        dsimp only at went
        generalize cutEq : ({ left with stack := left.stack.resize (m.height - count - 1) } : Machine) =
          cut at went
        by_cases room : cut.HasRoom
        · rw [pushOn_eq room] at went
          cases went
          rw [← cutEq]
          refine ⟨?_, performed.frames⟩
          rw [height, withStack, Stack.height_push]
          dsimp only
          omega
        · rw [pushOn_full room] at went
          cases went
    | _ => cases went

theorem CallsNative.low {host : Host} {m after : Machine} (calls : m.CallsNative)
    (stepped : m.step host = .next after) :
    after.height ≤ m.height ∧ after.frames.length = m.frames.length := by
  obtain ⟨frame, rest, operand, k, frames, byte, read, peeked⟩ := calls
  have fetched : (m.fetch frame rest .call).stack = m.stack := m.fetch_stack ..
  have there : (m.fetch frame rest .call).peek operand = .ok (.native k) := by
    rw [peek, fetched]
    exact peeked
  rw [step_eq frames byte read, execute, peekThen, there] at stepped
  obtain ⟨low, same⟩ := callNative_low (peek_present there) stepped
  constructor
  · simpa only [height, fetched] using low
  · rw [same, fetch_frames, frames]
    rfl

theorem Fits.overflows {m after : Machine} {limit n : Nat} (host : Host) (fits : m.Fits limit)
    (wider : limit ≤ n) (stepped : (m.limited n).step host = .next after)
    (beyond : limit < after.frames.length ∨ limit * slotsPerFrame < after.height) :
    (m.step host).Overflows := by
  by_cases calls : (m.limited n).CallsNative
  · obtain ⟨low, same⟩ := calls.low stepped
    have height : m.height ≤ m.maxFrames * slotsPerFrame := fits.height
    have depth := fits.depth
    rw [fits.maxFrames] at height depth
    simp only [limited, Machine.height] at low same height beyond
    omega
  · have cuts := step_cuts host (m := m.limited n) wider calls
    have same : (m.limited n).limited limit = m := by
      rw [← fits.maxFrames]
      rfl
    rw [same, stepped] at cuts
    rcases cuts with overflows | equal
    · exact overflows
    · have within := fits.step host
      rw [equal] at within
      have height : after.height ≤ limit * slotsPerFrame := within.height
      have depth : after.frames.length ≤ limit := within.depth
      omega

end Machine

end Reckoner
