import Reckoner.Proofs.Machine.Course
import Reckoner.Proofs.Machine.Twins

/-!
A call on top of others. It takes the steps it would take alone on an empty stack, with its values
higher up, until it returns or runs into a limit that the call alone has not reached.
-/

namespace Reckoner

def Frame.raised (height : Nat) (f : Frame) : Frame := { f with base := height + f.base }

namespace Machine

/-- What lies under a call: the stack below it, the calls around it and what was written before. -/
structure Ground where
  below : List Value
  calls : List Frame
  written : Array (Channel × String)

/-- The machine `a` is the machine `c` on a ground. Its limits can be tighter. -/
structure Over (a : Machine) (g : Ground) (c : Machine) : Prop where
  frames : a.frames = c.frames.map (Frame.raised g.below.length) ++ g.calls
  values : a.values = g.below ++ c.values
  globals : a.globals = c.globals
  world : a.world = c.world
  maxFrames : a.maxFrames ≤ c.maxFrames
  written : a.written = g.written ++ c.written

def Returned (c : Machine) : Prop := c.frames = [] ∧ ∃ v, c.values = [v]

end Machine

def Step.IsLimited (g : Machine.Ground) : Step → Prop
  | .fault f a => f.cause.isLimit = true ∧ ∃ above, a.values = g.below ++ above
  | _ => False

def Step.Over (g : Machine.Ground) : Step → Step → Prop
  | .next a, .next c => a.Over g c ∧ Machine.Rooted 0 c.frames
  | .next a, .finished c => a.Over g c ∧ c.Returned ∧ g.calls ≠ []
  | .finished a, .finished c => a.Over g c ∧ c.Returned ∧ g.calls = []
  | .fault f a, .fault h c => f.cause = h.cause ∧ a.Over g c
  | .crash reason a, .crash other c => reason = other ∧ a.Over g c
  | _, _ => False

/-- The first step is the second on a ground, or runs into a limit. -/
def Step.Lifts (g : Machine.Ground) (x y : Step) : Prop :=
  x.IsLimited g ∨ x.Over g y

namespace Machine.Over

variable {g : Ground} {a c : Machine} (atop : a.Over g c)

include atop

theorem height : a.height = g.below.length + c.height := by
  rw [← length_values, ← length_values, atop.values, List.length_append]

theorem height_sub {n : Nat} (bound : n ≤ c.height) :
    a.height - n = g.below.length + (c.height - n) := by
  have height := atop.height
  omega

theorem frames_cons {frame : Frame} {rest : List Frame} (frames : c.frames = frame :: rest) :
    a.frames = frame.raised g.below.length ::
      (rest.map (Frame.raised g.below.length) ++ g.calls) := by
  rw [atop.frames, frames]
  rfl

theorem append {below above : List Value} (values : c.values = below ++ above) :
    a.values = g.below ++ below ++ above := by
  rw [atop.values, values, List.append_assoc]

theorem room (room : a.HasRoom) : c.HasRoom := by
  have height := atop.height
  have bound := Nat.mul_le_mul_right slotsPerFrame atop.maxFrames
  simp only [HasRoom, maxHeight] at room ⊢
  omega

theorem global? (name : String) : a.global? name = c.global? name := by
  rw [Machine.global?, Machine.global?, atop.globals]

theorem withStack {s u : Stack} (values : s.values = g.below ++ u.values) :
    (a.withStack s).Over g (c.withStack u) :=
  { atop with values }

theorem define (name : String) (v : Value) : (a.define name v).Over g (c.define name v) :=
  { atop with globals := by rw [Machine.define, Machine.define, atop.globals] }

theorem write (channel : Channel) (text : String) :
    (a.write channel text).Over g (c.write channel text) := by
  refine { atop with written := ?_ }
  rw [Machine.write, Machine.write, atop.written, Array.append_push]

theorem push (v : Value) :
    (a.withStack (a.stack.push v)).Over g (c.withStack (c.stack.push v)) := by
  apply atop.withStack
  rw [Stack.values_push, Stack.values_push, ← List.append_assoc]
  exact congrArg (· ++ [v]) atop.values

theorem resize {n : Nat} (bound : n ≤ c.height) :
    (a.withStack (a.stack.resize (g.below.length + n))).Over g
      (c.withStack (c.stack.resize n)) := by
  have height := atop.height
  apply atop.withStack
  rw [Stack.values_resize bound, Stack.values_resize (show g.below.length + n ≤ a.height by omega),
    show a.stack.values = g.below ++ c.stack.values from atop.values, List.take_append,
    List.take_of_length_le (Nat.le_add_right ..), Nat.add_sub_cancel_left]

theorem set (slot : Nat) (v : Value) :
    (a.withStack (a.stack.set (g.below.length + slot) v)).Over g
      (c.withStack (c.stack.set slot v)) := by
  apply atop.withStack
  rw [Stack.values_set, Stack.values_set,
    show a.stack.values = g.below ++ c.stack.values from atop.values,
    List.set_append_right _ _ (Nat.le_add_right ..), Nat.add_sub_cancel_left]

theorem get? (slot : Nat) : a.stack.get? (g.below.length + slot) = c.stack.get? slot := by
  rw [Stack.get?_eq, Stack.get?_eq,
    show a.stack.values = g.below ++ c.stack.values from atop.values,
    List.getElem?_append_right (Nat.le_add_right ..), Nat.add_sub_cancel_left]

theorem limited {cause : Cause} (limit : cause.isLimit = true) (step : Step) :
    (a.raise cause).Lifts g step := .inl ⟨limit, _, atop.values⟩

theorem raise (cause : Cause) : (a.raise cause).Lifts g (c.raise cause) := .inr ⟨rfl, atop⟩

theorem pushOn (rooted : Rooted 0 c.frames) (v : Value) : (a.pushOn v).Lifts g (c.pushOn v) := by
  by_cases room : a.HasRoom
  · rw [pushOn_eq room, pushOn_eq (atop.room room)]
    exact .inr ⟨atop.push v, rooted⟩
  · rw [pushOn_full room]
    exact atop.limited rfl _

theorem fetch (frame : Frame) (rest : List Frame) (op : Operation) :
    (a.fetch (frame.raised g.below.length) (rest.map (Frame.raised g.below.length) ++ g.calls)
      op).Over g (c.fetch frame rest op) where
  frames := rfl
  values := by rw [fetch_values, fetch_values, atop.values]
  globals := by rw [fetch_globals, fetch_globals, atop.globals]
  world := by rw [fetch_world, fetch_world, atop.world]
  maxFrames := by rw [fetch_maxFrames, fetch_maxFrames]; exact atop.maxFrames
  written := by rw [fetch_written, fetch_written, atop.written]

section

variable {frame : Frame} {rest : List Frame} {depth : Nat} (within : c.Within frame rest depth)

include within

theorem popThen (enough : 1 < depth) (next : Value → Machine → Step) :
    ∃ v b d, a.popThen next = next v b ∧ c.popThen next = next v d ∧ b.Over g d ∧
      d.frames = c.frames ∧ d.Within frame rest (depth - 1) := by
  obtain ⟨below, v, values, -, sizes⟩ := within.top enough
  have whole := atop.append values
  refine ⟨v, _, _, popThen_eq whole next, popThen_eq values next, ?_, rfl, within.withStack ?_ ?_⟩
  · apply atop.withStack
    rw [Stack.values_below whole, Stack.values_below values]
  · rw [← Stack.length_values, Stack.values_below values]
    omega
  · intro w member
    rw [Stack.values_below values] at member
    exact within.values w (by rw [values]; exact List.mem_append_left _ member)

theorem peekThen {distance : Nat} (enough : distance + 1 < depth) :
    ∃ v, (∀ next, a.peekThen distance next = next v) ∧ ∀ next, c.peekThen distance next = next v := by
  obtain ⟨below, v, above, values, length, -, -, peeked⟩ := within.peek enough
  exact ⟨v, peekThen_eq (atop.append values) length, peeked⟩

theorem twoNumbers (enough : 2 < depth) {f h : Decimal → Decimal → Step}
    (lifts : ∀ x y, (f x y).Lifts g (h x y)) : (a.twoNumbers f).Lifts g (c.twoNumbers h) := by
  obtain ⟨y, first, second⟩ := atop.peekThen within (show 0 + 1 < depth by omega)
  obtain ⟨x, third, fourth⟩ := atop.peekThen within (show 1 + 1 < depth from enough)
  rw [Machine.twoNumbers, Machine.twoNumbers, first, second, third, fourth]
  split
  · exact lifts _ _
  · exact atop.raise _

variable (rooted : Rooted 0 c.frames)

include rooted

theorem replaceTwo (enough : 2 < depth) (v : Value) :
    (a.replaceTwo v).Lifts g (c.replaceTwo v) := by
  have height := within.height
  rw [Machine.replaceTwo, Machine.replaceTwo, atop.height_sub (by omega)]
  exact (atop.resize (Nat.sub_le ..)).pushOn rooted v

theorem arithmetic (enough : 2 < depth) (f : Decimal → Decimal → Except ArithmeticError Decimal) :
    (a.arithmetic f).Lifts g (c.arithmetic f) := by
  refine atop.twoNumbers within enough fun x y => ?_
  split
  · exact atop.replaceTwo within rooted enough _
  · exact atop.raise _

theorem jumpBy (distance : Int) : (a.jumpBy distance).Over g (c.jumpBy distance) ∧
    Rooted 0 (c.jumpBy distance).frames := by
  have frames := within.frames
  rw [Machine.jumpBy, Machine.jumpBy, atop.frames, frames]
  rw [frames] at rooted
  exact ⟨{ atop with frames := rfl }, rooted.replace rfl⟩

theorem enter (r : Routine) (count : Nat) (enough : count < depth) :
    (a.enter r count).Lifts g (c.enter r count) := by
  have deeper : a.frames.length = c.frames.length + g.calls.length := by
    rw [atop.frames, List.length_append, List.length_map]
  have limits := atop.maxFrames
  have height := within.height
  have base : a.height - count - 1 = g.below.length + (c.height - count - 1) :=
    atop.height_sub (n := count + 1) (by omega)
  rw [Machine.enter, Machine.enter]
  by_cases arity : r.arity ≠ count
  · rw [if_pos arity, if_pos arity]
    exact atop.raise _
  · rw [if_neg arity, if_neg arity]
    by_cases deep : a.maxFrames ≤ a.frames.length
    · rw [if_pos deep]
      exact atop.limited rfl _
    · rw [if_neg deep, if_neg (by omega), base, atop.frames]
      refine .inr ⟨{ atop with frames := rfl }, ?_⟩
      rw [within.frames] at rooted ⊢
      exact rooted

theorem leave (enough : 1 < depth) : a.leave.Lifts g c.leave := by
  obtain ⟨below, v, values, -, sizes⟩ := within.top enough
  have whole := atop.append values
  have frames := atop.frames_cons within.frames
  have handed : (a.handed (frame.raised g.below.length)
      (rest.map (Frame.raised g.below.length) ++ g.calls) v).Over g (c.handed frame rest v) := by
    refine { atop with frames := rfl, values := ?_ }
    have bound : (frame.raised g.below.length).base ≤ (g.below ++ below).length := by
      rw [Frame.raised, List.length_append]
      dsimp only
      omega
    rw [values_handed _ _ whole bound, values_handed frame rest values (by omega),
      Frame.raised, List.take_append, List.take_of_length_le (Nat.le_add_right ..),
      Nat.add_sub_cancel_left]
  generalize lifted : a.handed (frame.raised g.below.length)
    (rest.map (Frame.raised g.below.length) ++ g.calls) v = b at handed
  by_cases room : b.HasRoom
  · rw [leave_room within.frames values (handed.room room), leave_room frames whole (lifted ▸ room),
      lifted]
    rw [within.frames] at rooted
    have pushed := handed.push v
    cases rest with
    | nil =>
        have root : frame.base = 0 := rooted
        have returned : Returned ((c.handed frame [] v).withStack
            ((c.handed frame [] v).stack.push v)) := by
          refine ⟨rfl, v, ?_⟩
          rw [Machine.values, Machine.withStack, Stack.values_push]
          have nothing := values_handed frame [] values (by omega)
          rw [root, List.take_zero] at nothing
          exact congrArg (· ++ [v]) nothing
        cases calls : g.calls with
        | nil => exact .inr ⟨pushed, returned, calls⟩
        | cons outer others =>
            have entered : g.calls ≠ [] := by simp [calls]
            exact .inr ⟨pushed, returned, entered⟩
    | cons outer rest => exact .inr ⟨pushed, rooted⟩
  · rw [leave_full frames whole (lifted ▸ room), lifted]
    exact handed.limited rfl _

end

end Machine.Over

/-- Two natives do the same, apart from what a refusal of the machine says of the calls in
progress. Neither looks at the stack or pushes anything. -/
def Action.Alike : Action → Action → Prop
  | .answer v, .answer w => v = w
  | .fail e, .fail d => e = d
  | .passOn f, .passOn h => f.cause = h.cause
  | .crash reason, .crash other => reason = other
  | .define name v next, .define other w more => name = other ∧ v = w ∧ next.Alike more
  | .call _ _ next, .call _ _ more =>
    ∀ f h : Fault, f.cause = h.cause → (next (.error f)).Alike (more (.error h))
  | .interpret _ next, .interpret _ more =>
    ∀ f h : Fault, f.cause = h.cause → (next (some f)).Alike (more (some h))
  | .clock next, .clock more => ∀ d, (next d).Alike (more d)
  | .random next, .random more => ∀ d, (next d).Alike (more d)
  | _, _ => False

/-- The natives do not touch the stack, and look at no calls in progress. -/
def Host.Stackless (host : Host) : Prop :=
  ∀ n args, (∀ v ∈ args, v.Proper) → (host n args).Alike (host n args)

namespace Machine

def NativeOver (g : Ground) (before : Machine) : Ending Value → Ending Value → Prop
  | .done v a, .done w c => v = w ∧ a.Over g c ∧ c.values = before.values ∧ c.frames = before.frames
  | .fault f a, .fault h c => f.cause = h.cause ∧ a.Over g c
  | .crash reason a, .crash other c => reason = other ∧ a.Over g c
  | _, _ => False

theorem perform_over {g : Ground} {before : Machine} {first second : Action}
    (alike : first.Alike second) {a c : Machine} (atop : a.Over g c)
    (values : c.values = before.values) (frames : c.frames = before.frames) :
    NativeOver g before
      (first.perform (fun _ _ m => .fault (m.faultOf .alreadyRunning) m)
        (fun _ m => .fault (m.faultOf .alreadyRunning) m) a)
      (second.perform (fun _ _ m => .fault (m.faultOf .alreadyRunning) m)
        (fun _ m => .fault (m.faultOf .alreadyRunning) m) c) := by
  induction first generalizing second a c with
  | answer v =>
      cases second with
      | answer w => exact ⟨alike, atop, values, frames⟩
      | _ => exact alike.elim
  | fail e =>
      cases second with
      | fail d => exact ⟨congrArg Cause.host alike, atop⟩
      | _ => exact alike.elim
  | passOn f =>
      cases second with
      | passOn h => exact ⟨alike, atop⟩
      | _ => exact alike.elim
  | crash reason =>
      cases second with
      | crash other => exact ⟨alike, atop⟩
      | _ => exact alike.elim
  | height next => exact alike.elim
  | define name v next ih =>
      cases second with
      | define other w more =>
          obtain ⟨rfl, rfl, same⟩ := alike
          exact ih same (atop.define name v) values frames
      | _ => exact alike.elim
  | push v next => exact alike.elim
  | call name args next ih =>
      cases second with
      | call other passed more =>
          have same := alike (a.faultOf .alreadyRunning) (c.faultOf .alreadyRunning) rfl
          exact ih _ same atop values frames
      | _ => exact alike.elim
  | interpret r next ih =>
      cases second with
      | interpret other more =>
          have same := alike (a.faultOf .alreadyRunning) (c.faultOf .alreadyRunning) rfl
          exact ih _ same atop values frames
      | _ => exact alike.elim
  | clock next ih =>
      cases second with
      | clock more =>
          rw [Action.perform, Action.perform, atop.world]
          exact ih _ (alike _) { atop with world := rfl } values frames
      | _ => exact alike.elim
  | random next ih =>
      cases second with
      | random more =>
          rw [Action.perform, Action.perform, atop.world]
          exact ih _ (alike _) { atop with world := rfl } values frames
      | _ => exact alike.elim

namespace Over

variable {host : Host} (stackless : host.Stackless) {g : Ground} {a c : Machine} (atop : a.Over g c)
  {frame : Frame} {rest : List Frame} {depth : Nat} (within : c.Within frame rest depth)
  (rooted : Rooted 0 c.frames)

include stackless atop within rooted

theorem callNative (n : Native) {count : Nat} (enough : count < depth) :
    (a.callNative (performBusy host) n count).Lifts g (c.callNative (performBusy host) n count) := by
  rw [Machine.callNative, Machine.callNative]
  by_cases arity : n.arity ≠ count
  · rw [if_pos arity, if_pos arity]
    exact atop.raise _
  · rw [if_neg arity, if_neg arity]
    obtain ⟨below, args, values, length, sizes⟩ := within.split enough
    have propers : ∀ v ∈ args, v.Proper := by
      intro v member
      exact within.values v (by rw [values]; exact List.mem_append_right _ member)
    have height := within.height
    have lower : a.height - count - 1 = g.below.length + (c.height - count - 1) :=
      atop.height_sub (n := count + 1) (by omega)
    dsimp only
    rw [Stack.top_eq (atop.append values) length, Stack.top_eq values length, lower]
    have same := perform_over (stackless n args propers) atop rfl rfl
    rw [performBusy, performBusy]
    generalize (host n args).perform _ _ a = one at same ⊢
    generalize (host n args).perform _ _ c = other at same ⊢
    cases one <;> cases other <;> try exact same.elim
    · obtain ⟨rfl, later, kept, frames⟩ := same
      refine (later.resize ?_).pushOn (frames ▸ rooted) _
      have same := congrArg List.length kept
      rw [length_values, length_values] at same
      omega
    · exact .inr same
    · exact .inr same

theorem callValue (callee : Value) {count : Nat} (enough : count < depth) :
    (a.callValue (performBusy host) callee count).Lifts g
      (c.callValue (performBusy host) callee count) := by
  cases callee with
  | routine r => exact atop.enter within rooted r count enough
  | native n => exact atop.callNative stackless within rooted n enough
  | _ => exact atop.raise _

theorem execute {pos : Nat} {d : Script.Directive}
    (reached : Script.Directive.Reached frame.routine pos d depth) :
    (execute host a (frame.raised g.below.length) d.op d.operand).Lifts g
      (execute host c frame d.op d.operand) := by
  obtain ⟨op, operand⟩ := d
  have enough := reached.enough
  have height := within.height
  cases op with
  | true | false => exact atop.pushOn rooted _
  | constant =>
      obtain ⟨k, stored, accepts⟩ := reached.constant rfl
      rw [Machine.execute, Machine.execute, Frame.raised, stored]
      rcases accepts with ⟨x, rfl⟩ | ⟨r, rfl⟩
      · exact atop.pushOn rooted _
      · exact atop.pushOn rooted _
  | pop =>
      obtain ⟨v, b, d, left, right, popped, frames, -⟩ :=
        atop.popThen within enough fun _ m => .next m
      rw [Machine.execute, Machine.execute, left, right]
      exact .inr ⟨popped, frames ▸ rooted⟩
  | popN =>
      have bound : operand < depth := enough
      have inside : operand ≤ c.height := by omega
      have deeper : operand ≤ a.height := by
        rw [atop.height]
        omega
      rw [Machine.execute, Machine.execute, dropOn, dropOn, atop.height_sub inside, if_pos inside,
        if_pos deeper]
      exact .inr ⟨atop.resize (Nat.sub_le ..), rooted⟩
  | loadGlobal =>
      rw [Machine.execute, Machine.execute, Frame.raised]
      obtain ⟨k, stored, name, rfl⟩ := reached.constant rfl
      rw [nameAt?, stored]
      dsimp only
      rw [atop.global?]
      split
      · exact atop.pushOn rooted _
      · exact atop.raise _
  | assignGlobal =>
      obtain ⟨v, left, right⟩ := atop.peekThen within (show 0 + 1 < depth from enough)
      obtain ⟨k, stored, name, rfl⟩ := reached.constant rfl
      rw [Machine.execute, Machine.execute, Frame.raised, nameAt?, stored]
      dsimp only
      rw [atop.global?, left, right]
      split
      · exact .inr ⟨atop.define name v, rooted⟩
      · exact atop.raise _
  | defineGlobal =>
      obtain ⟨k, stored, name, rfl⟩ := reached.constant rfl
      rw [Machine.execute, Machine.execute, Frame.raised, nameAt?, stored]
      dsimp only
      obtain ⟨v, b, d, left, right, popped, frames, -⟩ :=
        atop.popThen within enough fun v m => .next (m.define name v)
      rw [left, right]
      exact .inr ⟨popped.define name v, frames ▸ rooted⟩
  | loadLocal =>
      rw [Machine.execute, Machine.execute, Frame.raised]
      dsimp only
      -- Slots count from the base of the frame, which the ground raises.
      rw [Nat.add_assoc, atop.get?]
      split
      · exact atop.pushOn rooted _
      · exact .inr ⟨rfl, atop⟩
  | assignLocal =>
      obtain ⟨v, left, right⟩ := atop.peekThen within (show 0 + 1 < depth from enough)
      rw [Machine.execute, Machine.execute, left, right, Frame.raised]
      dsimp only
      rw [Nat.add_assoc, atop.height]
      by_cases inside : frame.base + operand < c.height
      · rw [if_pos inside, if_pos (Nat.add_lt_add_left inside _)]
        exact .inr ⟨atop.set _ v, rooted⟩
      · rw [if_neg inside, if_neg (by omega)]
        exact .inr ⟨rfl, atop⟩
  | equal =>
      obtain ⟨y, b, d, left, right, popped, frames, lowered⟩ := atop.popThen within
        (Nat.lt_of_succ_lt enough) fun y m => m.popThen fun x m => m.pushOn (.bool (x.same y))
      have more : 1 < depth - 1 := Nat.lt_sub_of_add_lt enough
      obtain ⟨x, e, f, one, other, again, same, -⟩ := popped.popThen lowered more
        fun x m => m.pushOn (.bool (x.same y))
      rw [Machine.execute, Machine.execute, left, right, one, other]
      exact again.pushOn (by rw [same, frames]; exact rooted) _
  | greater | less =>
      exact atop.twoNumbers within enough fun x y => atop.replaceTwo within rooted enough _
  | add | subtract | multiply | divide | exponent | modulo =>
      exact atop.arithmetic within rooted enough _
  | negate =>
      obtain ⟨v, left, right⟩ := atop.peekThen within (show 0 + 1 < depth from enough)
      have more : 1 < depth := enough
      rw [Machine.execute, Machine.execute, left, right, atop.height_sub (by omega)]
      split
      · exact .inr ⟨atop.set _ _, rooted⟩
      · exact atop.raise _
  | not =>
      obtain ⟨v, b, d, left, right, popped, frames, -⟩ := atop.popThen within enough
        fun v m => m.pushOn (.bool v.falsey)
      rw [Machine.execute, Machine.execute, left, right]
      exact popped.pushOn (frames ▸ rooted) _
  | print =>
      obtain ⟨v, b, d, left, right, popped, frames, -⟩ := atop.popThen within enough
        fun v m => .next (m.write .out (v.display ++ "\n"))
      rw [Machine.execute, Machine.execute, left, right]
      exact .inr ⟨popped.write .out _, frames ▸ rooted⟩
  | jump => exact .inr (atop.jumpBy within rooted _)
  | jumpIfFalse =>
      obtain ⟨v, left, right⟩ := atop.peekThen within (show 0 + 1 < depth from enough)
      rw [Machine.execute, Machine.execute, left, right]
      split
      · exact .inr (atop.jumpBy within rooted _)
      · exact .inr ⟨atop, rooted⟩
  | loop => exact .inr (atop.jumpBy within rooted _)
  | call =>
      obtain ⟨v, left, right⟩ := atop.peekThen within enough
      rw [Machine.execute, Machine.execute, left, right]
      exact atop.callValue stackless within rooted v (Nat.lt_of_succ_lt enough)
  | «return» => exact atop.leave within rooted enough

end Over

theorem step_lifts {host : Host} (stackless : host.Stackless) {g : Ground} {a c : Machine}
    (atop : a.Over g c) (orderly : c.Orderly) (rooted : Rooted 0 c.frames) :
    (a.step host).Lifts g (c.step host) := by
  obtain ⟨frame, rest, depth, within, pos, ip, flows⟩ := orderly
  obtain ⟨d, reached, stepped⟩ := within.step_eq host ip flows
  have frames := atop.frames_cons within.frames
  obtain ⟨byte, read⟩ := fetched ip reached
  have raised : byteAt? (frame.raised g.below.length).routine (frame.raised g.below.length).ip =
      some d.op.byte := byte
  rw [stepped c rfl, step_eq frames raised read]
  rw [within.frames] at rooted
  exact (atop.fetch frame rest d.op).execute stackless (within.fetch d.op) (rooted.replace rfl)
    reached

end Machine

end Reckoner
