import Reckoner.Proofs.Code.Validity
import Reckoner.Proofs.Machine.Execution

/-!
Order in a running machine. The innermost call is at an offset of its routine that control can reach
at the depth of its part of the stack, and every call around it can go on once its callee has left a
result. No operation breaks this order or finds it broken.
-/

namespace Reckoner

open Script

/-- The compiler produced the routine, for a whole source or for a function in one. -/
def Routine.Compiled (r : Routine) : Prop :=
  ∃ unit source top,
    (compileBytes unit source = .ok top ∨ compileExpressionBytes unit source = .ok top) ∧ top.Nested r

theorem Routine.Compiled.implements {r : Routine} (compiled : r.Compiled) :
    ∃ unit isGlobal f, Implements unit isGlobal r f := by
  obtain ⟨unit, source, top, accepted, nested⟩ := compiled
  obtain ⟨f, implements⟩ : ∃ f, Implements unit true top f := by
    rcases accepted with script | expression
    · obtain ⟨f, -, implements⟩ := Compiler.script_implements script
      exact ⟨f, implements⟩
    · obtain ⟨f, -, implements⟩ := Compiler.expression_implements expression
      exact ⟨f, implements⟩
  obtain ⟨isGlobal, g, -, image⟩ := implements.of_nested nested
  exact ⟨unit, isGlobal, g, image⟩

theorem Routine.Compiled.carries {r : Routine} (compiled : r.Compiled) :
    ∃ unit isGlobal f marked, Carries unit isGlobal r f marked := by
  obtain ⟨unit, isGlobal, f, implements⟩ := compiled.implements
  obtain ⟨marked, carries⟩ := implements.carries
  exact ⟨unit, isGlobal, f, marked, carries⟩

theorem Routine.Compiled.nested {r q : Routine} (compiled : r.Compiled)
    (member : .routine q ∈ r.constants) : q.Compiled := by
  obtain ⟨unit, source, top, accepted, nested⟩ := compiled
  exact ⟨unit, source, top, accepted, .constant nested member⟩

/-- A value that compiled code can be given: a routine among them comes from the compiler. -/
def Value.Proper : Value → Prop
  | .routine r => r.Compiled
  | _ => True

/-- The faults that compiled code can raise by itself. -/
def Cause.isOrdinary : Cause → Bool
  | .undefinedVariable _ | .operandsNotNumbers | .operandNotNumber | .arithmetic _ | .arity _ _
  | .notCallable | .callDepth | .stackFull => true
  | .stackEmpty | .peekRange | .unknownOperation _ | .alreadyRunning | .host _ => false

def Machine.ProperGlobals (m : Machine) : Prop := ∀ name v, m.global? name = some v → v.Proper

/-- No call is in progress, and the machine holds nothing that compiled code cannot be given. -/
structure Machine.Rests (m : Machine) : Prop where
  idle : m.isRunning = false
  values : ∀ v ∈ m.values, v.Proper
  globals : m.ProperGlobals

/-- A step either goes on in a given way, ends the run with a result on the stack, or raises an
ordinary fault. All else is the work of a native. -/
def Step.Safe (host : Host) (order : Machine → Prop) : Step → Prop
  | .next m => order m
  | .finished m => m.Rests ∧ 0 < m.height
  | .fault f m => f.cause.isOrdinary = true ∨
    ∃ n args before, Machine.performBusy host n args before = .fault f m
  | .crash reason m => ∃ n args before, Machine.performBusy host n args before = .crash reason m
  | .exhausted _ => False

namespace Machine

/-- The calls around an innermost one with the given base. When it is left, one value takes the place
of all from its base on. -/
def Waiting (base : Nat) : List Frame → Prop
  | [] => True
  | frame :: rest => frame.routine.Compiled ∧ frame.base ≤ base ∧
    (∃ p : Nat, frame.ip = p ∧ frame.routine.Flows p (base + 1 - frame.base)) ∧
    Waiting frame.base rest

structure Within (m : Machine) (frame : Frame) (rest : List Frame) (depth : Nat) : Prop where
  frames : m.frames = frame :: rest
  height : m.height = frame.base + depth
  values : ∀ v ∈ m.values, v.Proper
  globals : m.ProperGlobals
  routine : frame.routine.Compiled
  waiting : Waiting frame.base rest

/-- The innermost call is where control can be. -/
def Orderly (m : Machine) : Prop :=
  ∃ frame rest depth, m.Within frame rest depth ∧
    ∃ p : Nat, frame.ip = p ∧ frame.routine.Flows p depth

structure Answered (before after : Machine) (v : Value) : Prop where
  proper : v.Proper
  stack : after.stack = before.stack
  frames : after.frames = before.frames
  globals : after.ProperGlobals

end Machine

/-- What a run needs of a native that has answered: the calls in progress are as they were, and
what was on the stack is still there. -/
structure Machine.Served (before after : Machine) (v : Value) : Prop where
  proper : v.Proper
  grown : ∃ extra, after.values = before.values ++ extra ∧ ∀ w ∈ extra, w.Proper
  frames : after.frames = before.frames
  globals : after.ProperGlobals

/-- The natives serve a run. -/
def Host.Serves (host : Host) : Prop :=
  ∀ n args m v after, (∀ w ∈ args, w.Proper) → m.ProperGlobals →
    Machine.performBusy host n args m = .done v after → m.Served after v

/-- The natives leave the stack and the calls in progress alone, both during a run and outside. -/
structure Host.Respects (host : Host) : Prop where
  busy : ∀ n args m v after, (∀ w ∈ args, w.Proper) → m.ProperGlobals →
    Machine.performBusy host n args m = .done v after → m.Answered after v
  idle : ∀ fuel n args m v after, (∀ w ∈ args, w.Proper) → m.ProperGlobals →
    (host n args).perform (Machine.callGlobal host fuel) (Machine.interpret host fuel) m =
      .done v after → m.Answered after v

theorem Host.Respects.serves {host : Host} (respects : host.Respects) : host.Serves := by
  intro n args m v after propers globals performed
  have answered := respects.busy n args m v after propers globals performed
  refine ⟨answered.proper, ⟨[], ?_, nofun⟩, answered.frames, answered.globals⟩
  rw [Machine.values, answered.stack, List.append_nil]
  rfl

namespace Machine

theorem perform_ends {call : String → List Value → Machine → Ending Value}
    {interpret : Routine → Machine → Ending Unit} (calls : ∀ name args m after,
      call name args m ≠ .exhausted after)
    (interprets : ∀ r m after, interpret r m ≠ .exhausted after) (action : Action)
    (m after : Machine) : action.perform call interpret m ≠ .exhausted after := by
  induction action generalizing m with
  | answer | fail | passOn | crash => exact nofun
  | height next ih =>
      rw [Action.perform]
      exact ih m.height m
  | define name v next ih =>
      rw [Action.perform]
      exact ih _
  | push v next ih =>
      rw [Action.perform]
      split
      · exact ih _
      · exact ih _
  | call name args next ih =>
      rw [Action.perform]
      split
      · exact ih _ _
      · exact ih _ _
      · exact nofun
      · rename_i ended
        exact absurd ended (calls name args m _)
  | interpret r next ih =>
      rw [Action.perform]
      split
      · exact ih _ _
      · exact ih _ _
      · exact nofun
      · rename_i ended
        exact absurd ended (interprets r m _)
  | clock next ih =>
      rw [Action.perform]
      generalize m.world.readClock = read
      exact ih read.1 _
  | random next ih =>
      rw [Action.perform]
      generalize m.world.draw = drawn
      exact ih drawn.1 _

theorem raise_safe (host : Host) (order : Machine → Prop) (m : Machine) {cause : Cause}
    (ordinary : cause.isOrdinary = true) : (m.raise cause).Safe host order := .inl ordinary

namespace Within

variable {m : Machine} {frame : Frame} {rest : List Frame} {depth : Nat}
  (within : m.Within frame rest depth)

include within

theorem orderly {p : Nat} (ip : frame.ip = p) (flows : frame.routine.Flows p depth) : m.Orderly :=
  ⟨frame, rest, depth, within, p, ip, flows⟩

theorem length : m.values.length = frame.base + depth := m.length_values.trans within.height

theorem withStack {s : Stack} {after : Nat} (height : s.height = frame.base + after)
    (values : ∀ v ∈ s.values, v.Proper) : (m.withStack s).Within frame rest after where
  frames := within.frames
  height := height
  values := values
  globals := within.globals
  routine := within.routine
  waiting := within.waiting

theorem split {n : Nat} (enough : n < depth) :
    ∃ below above, m.values = below ++ above ∧ above.length = n ∧
      below.length + n = frame.base + depth := by
  refine ⟨m.values.take (frame.base + depth - n), m.values.drop (frame.base + depth - n),
    (List.take_append_drop ..).symm, ?_, ?_⟩
  · rw [List.length_drop, within.length]
    omega
  · rw [List.length_take, within.length]
    omega

theorem top (enough : 1 < depth) : ∃ below v, m.values = below ++ [v] ∧ v.Proper ∧
    below.length + 1 = frame.base + depth := by
  obtain ⟨below, above, whole, length, sizes⟩ := within.split enough
  obtain ⟨v, rfl⟩ := List.length_eq_one_iff.mp length
  exact ⟨below, v, whole, within.values v (by rw [whole]; simp), sizes⟩

theorem pushOn (host : Host) {v : Value} (proper : v.Proper) {p : Nat} (ip : frame.ip = p)
    (flows : frame.routine.Flows p (depth + 1)) : (m.pushOn v).Safe host Orderly := by
  by_cases room : m.HasRoom
  · rw [pushOn_eq room]
    have pushed : (m.withStack (m.stack.push v)).Within frame rest (depth + 1) := by
      refine within.withStack ?_ ?_
      · rw [← Stack.length_values, Stack.values_push, List.length_append, List.length_singleton,
          ← Nat.add_assoc, ← within.length]
        rfl
      · intro w member
        rw [Stack.values_push] at member
        rcases List.mem_append.mp member with old | new
        · exact within.values w old
        · rw [List.mem_singleton.mp new]
          exact proper
    exact pushed.orderly ip flows
  · rw [pushOn_full room]
    exact raise_safe host Orderly m rfl

theorem popThen (enough : 1 < depth) (next : Value → Machine → Step) :
    ∃ v after, m.popThen next = next v after ∧ v.Proper ∧ after.Within frame rest (depth - 1) := by
  obtain ⟨below, v, whole, proper, sizes⟩ := within.top enough
  refine ⟨v, _, popThen_eq whole next, proper, within.withStack ?_ ?_⟩
  · rw [← Stack.length_values, Stack.values_below whole]
    omega
  · intro w member
    rw [Stack.values_below whole] at member
    exact within.values w (by rw [whole]; exact List.mem_append_left _ member)

theorem peek {distance : Nat} (enough : distance + 1 < depth) :
    ∃ below v above, m.values = below ++ v :: above ∧ above.length = distance ∧ v.Proper ∧
      below.length + 1 + distance = frame.base + depth ∧
      ∀ next, m.peekThen distance next = next v := by
  obtain ⟨below, above, whole, length, sizes⟩ := within.split enough
  cases above with
  | nil => exact absurd length (by simp)
  | cons v above =>
      have distanceEq : above.length = distance := Nat.succ.inj length
      exact ⟨below, v, above, whole, distanceEq, within.values v (by rw [whole]; simp), by omega,
        peekThen_eq whole distanceEq⟩

theorem resize {after height : Nat} (less : after ≤ depth) (heightEq : height = frame.base + after) :
    (m.withStack (m.stack.resize height)).Within frame rest after := by
  have bound : height ≤ m.stack.height := by
    have := within.height
    rw [Machine.height] at this
    omega
  refine within.withStack ?_ ?_
  · rw [← Stack.length_values, Stack.values_resize bound, List.length_take, Stack.length_values]
    omega
  · intro v member
    rw [Stack.values_resize bound] at member
    exact within.values v (List.mem_of_mem_take member)

theorem set {v : Value} (proper : v.Proper) (slot : Nat) :
    (m.withStack (m.stack.set slot v)).Within frame rest depth := by
  refine within.withStack ?_ ?_
  · rw [← Stack.length_values, Stack.values_set, List.length_set]
    exact within.length
  · intro w member
    rw [Stack.values_set] at member
    rcases List.mem_or_eq_of_mem_set member with old | rfl
    · exact within.values w old
    · exact proper

theorem define {v : Value} (proper : v.Proper) (name : String) :
    (m.define name v).Within frame rest depth where
  frames := within.frames
  height := within.height
  values := within.values
  globals := by
    intro other w found
    rw [global?, Machine.define, Std.ExtTreeMap.getElem?_insert] at found
    split at found
    · rw [← Option.some.inj found]
      exact proper
    · exact within.globals other w found
  routine := within.routine
  waiting := within.waiting

theorem twoNumbers (host : Host) (enough : 2 < depth) {next : Decimal → Decimal → Step}
    (safe : ∀ x y, (next x y).Safe host Orderly) : (m.twoNumbers next).Safe host Orderly := by
  obtain ⟨-, b, -, -, -, -, -, first⟩ := within.peek (show 0 + 1 < depth by omega)
  obtain ⟨-, a, -, -, -, -, -, second⟩ := within.peek (show 1 + 1 < depth from enough)
  rw [Machine.twoNumbers, first, second]
  split
  · exact safe _ _
  · exact raise_safe host Orderly m rfl

theorem replaceTwo (host : Host) (enough : 2 < depth) {v : Value} (proper : v.Proper) {p : Nat}
    (ip : frame.ip = p) (flows : frame.routine.Flows p (depth - 2 + 1)) :
    (m.replaceTwo v).Safe host Orderly := by
  have height : m.height - 2 = frame.base + (depth - 2) := by
    rw [within.height]
    omega
  exact (within.resize (Nat.sub_le ..) height).pushOn host proper ip flows

theorem arithmetic (host : Host) (enough : 2 < depth) {p : Nat} (ip : frame.ip = p)
    (flows : frame.routine.Flows p (depth - 2 + 1))
    (f : Decimal → Decimal → Except ArithmeticError Decimal) :
    (m.arithmetic f).Safe host Orderly := by
  refine within.twoNumbers host enough fun x y => ?_
  split
  · exact within.replaceTwo host enough trivial ip flows
  · exact raise_safe host Orderly m rfl

theorem jumpBy {distance : Int} {p : Nat} (ip : frame.ip + distance = p)
    (flows : frame.routine.Flows p depth) : (m.jumpBy distance).Orderly := by
  rw [Machine.jumpBy, within.frames]
  exact ⟨{ frame with ip := frame.ip + distance }, rest, depth, ⟨rfl, within.height, within.values,
    within.globals, within.routine, within.waiting⟩, p, ip, flows⟩

theorem enter (host : Host) {q : Routine} (compiled : q.Compiled) {count : Nat}
    (enough : count + 1 < depth) {p : Nat} (ip : frame.ip = p)
    (flows : frame.routine.Flows p (depth - (count + 1) + 1)) :
    (m.enter q count).Safe host Orderly := by
  rw [Machine.enter]
  split
  · exact raise_safe host Orderly m rfl
  · rename_i arity
    split
    · exact raise_safe host Orderly m rfl
    · have height := within.height
      refine ⟨_, m.frames, count + 1, ⟨rfl, ?_, within.values, within.globals, compiled, ?_⟩, 0, rfl,
        .start (Decidable.not_not.mp arity)⟩
      · show m.height = m.height - count - 1 + (count + 1)
        omega
      · rw [within.frames]
        refine ⟨within.routine, ?_, ⟨p, ip, ?_⟩, within.waiting⟩
        · show frame.base ≤ m.height - count - 1
          omega
        · show frame.routine.Flows p (m.height - count - 1 + 1 - frame.base)
          rwa [show m.height - count - 1 + 1 - frame.base = depth - (count + 1) + 1 by omega]

theorem leave (host : Host) (enough : 1 < depth) : m.leave.Safe host Orderly := by
  rw [Machine.leave]
  obtain ⟨v, after, popped, proper, lowered⟩ := within.popThen enough _
  rw [popped, lowered.frames]
  dsimp only
  have resized := lowered.resize (Nat.zero_le _) rfl
  generalize baseEq : ({ after with frames := rest, stack := after.stack.resize frame.base } : Machine)
    = base
  have frames : base.frames = rest := by rw [← baseEq]
  have height : base.height = frame.base := by
    rw [← baseEq]
    exact resized.height
  have values : ∀ w ∈ base.values, w.Proper := by
    rw [← baseEq]
    exact resized.values
  have globals : base.ProperGlobals := by
    rw [← baseEq]
    exact resized.globals
  by_cases room : base.HasRoom
  · rw [pushOn_eq room]
    have waiting := within.waiting
    cases rest with
    | nil =>
        have ended : (base.withStack (base.stack.push v)).isRunning = false := by
          rw [isRunning, Machine.withStack, frames]
          rfl
        simp only [ended]
        refine ⟨⟨ended, ?_, globals⟩, ?_⟩
        · intro w member
          rw [Machine.values, Machine.withStack, Stack.values_push] at member
          rcases List.mem_append.mp member with old | new
          · exact values w old
          · rw [List.mem_singleton.mp new]
            exact proper
        · rw [← length_values, Machine.values, Machine.withStack, Stack.values_push,
            List.length_append]
          exact Nat.succ_pos _
    | cons caller rest =>
        have running : (base.withStack (base.stack.push v)).isRunning = true := by
          rw [isRunning, Machine.withStack, frames]
          rfl
        simp only [running]
        obtain ⟨compiled, bound, ⟨p, ip, flows⟩, others⟩ := waiting
        have back : base.Within caller rest (frame.base - caller.base) :=
          ⟨frames, by omega, values, globals, compiled, others⟩
        have pushed := back.pushOn host proper ip
          (by rwa [show frame.base - caller.base + 1 = frame.base + 1 - caller.base by omega])
        rw [pushOn_eq room] at pushed
        exact pushed
  · rw [pushOn_full room]
    exact raise_safe host Orderly base rfl

theorem callNative {host : Host} (serves : host.Serves) (n : Native) {count : Nat}
    (enough : count + 1 < depth) {p : Nat} (ip : frame.ip = p)
    (flows : frame.routine.Flows p (depth - (count + 1) + 1)) :
    (m.callNative (performBusy host) n count).Safe host Orderly := by
  rw [Machine.callNative]
  split
  · exact raise_safe host Orderly m rfl
  · obtain ⟨below, above, whole, length, sizes⟩ := within.split (Nat.lt_of_succ_lt enough)
    have args : ∀ w ∈ m.stack.top count, w.Proper := by
      rw [Stack.top_eq whole length]
      intro w member
      exact within.values w (by rw [whole]; exact List.mem_append_right _ member)
    dsimp only
    split
    · rename_i v after performed
      have served := serves _ _ _ _ _ args within.globals performed
      obtain ⟨extra, grown, propers⟩ := served.grown
      have kept : after.Within frame rest (depth + extra.length) := {
        frames := served.frames.trans within.frames
        height := by
          rw [← length_values, grown, List.length_append, within.length, Nat.add_assoc]
        values := by
          rw [grown]
          intro w member
          rcases List.mem_append.mp member with old | new
          · exact within.values w old
          · exact propers w new
        globals := served.globals
        routine := within.routine
        waiting := within.waiting }
      have height : m.height - count - 1 = frame.base + (depth - (count + 1)) := by
        rw [within.height]
        omega
      exact (kept.resize (by omega) height).pushOn host served.proper ip flows
    · exact .inr ⟨_, _, _, by assumption⟩
    · exact ⟨_, _, _, by assumption⟩
    · rename_i after performed
      exact perform_ends (by intros; simp) (by intros; simp) _ _ _ performed

theorem callValue {host : Host} (serves : host.Serves) {callee : Value} (proper : callee.Proper)
    {count : Nat} (enough : count + 1 < depth) {p : Nat} (ip : frame.ip = p)
    (flows : frame.routine.Flows p (depth - (count + 1) + 1)) :
    (m.callValue (performBusy host) callee count).Safe host Orderly := by
  cases callee with
  | routine q => exact within.enter host proper enough ip flows
  | native n => exact within.callNative serves n enough ip flows
  | _ => exact raise_safe host Orderly m rfl

end Within

theorem execute_safe {host : Host} (serves : host.Serves) {m : Machine} {frame : Frame}
    {rest : List Frame} {p depth : Nat} {d : Directive} (within : m.Within frame rest depth)
    (reached : Directive.Reached frame.routine p d depth)
    (ip : frame.ip = (p + d.size : Nat)) :
    (execute host m frame d.op d.operand).Safe host Orderly := by
  obtain ⟨op, operand⟩ := d
  have enough := reached.enough
  have falls := reached.falls
  have flowsOn : ∀ {p : Nat}, frame.routine.Flows p (depth - 1 + 1) → frame.routine.Flows p depth := by
    intro p flows
    have positive := Nat.zero_lt_of_lt enough
    rwa [Nat.sub_add_cancel positive] at flows
  cases op with
  | true | false => exact within.pushOn host trivial ip (falls rfl)
  | constant =>
      obtain ⟨c, stored, accepts⟩ := reached.constant rfl
      rw [execute, stored]
      rcases accepts with ⟨n, rfl⟩ | ⟨q, rfl⟩
      · exact within.pushOn host trivial ip (falls rfl)
      · exact within.pushOn host (within.routine.nested (Array.mem_of_getElem? stored)) ip (falls rfl)
  | pop =>
      obtain ⟨v, after, popped, -, lowered⟩ := within.popThen enough fun _ m => .next m
      rw [execute, popped]
      exact lowered.orderly ip (falls rfl)
  | popN =>
      have bound : operand < depth := enough
      have whole := within.height
      have height : m.height - operand = frame.base + (depth - operand) := by omega
      rw [execute, dropOn, if_pos (by dsimp only; omega)]
      exact (within.resize (Nat.sub_le ..) height).orderly ip (falls rfl)
  | loadGlobal =>
      obtain ⟨c, stored, name, rfl⟩ := reached.constant rfl
      rw [execute, nameAt?, stored]
      dsimp only
      split
      · rename_i v found
        exact within.pushOn host (within.globals name v found) ip (falls rfl)
      · exact raise_safe host Orderly m rfl
  | assignGlobal =>
      obtain ⟨c, stored, name, rfl⟩ := reached.constant rfl
      rw [execute, nameAt?, stored]
      dsimp only
      split
      · obtain ⟨-, v, -, -, -, proper, -, peeked⟩ := within.peek (show 0 + 1 < depth from enough)
        rw [peeked]
        exact (within.define proper name).orderly ip (flowsOn (falls rfl))
      · exact raise_safe host Orderly m rfl
  | defineGlobal =>
      obtain ⟨c, stored, name, rfl⟩ := reached.constant rfl
      rw [execute, nameAt?, stored]
      dsimp only
      obtain ⟨v, after, popped, proper, lowered⟩ :=
        within.popThen enough fun v m => .next (m.define name v)
      rw [popped]
      exact (lowered.define proper name).orderly ip (falls rfl)
  | loadLocal =>
      have bound : operand < depth := reached.slot rfl
      have inside : frame.base + operand < m.values.length := by
        rw [within.length]
        omega
      rw [execute, Stack.get?_eq]
      dsimp only
      rw [show m.stack.values = m.values from rfl, List.getElem?_eq_getElem inside]
      exact within.pushOn host (within.values _ (List.getElem_mem inside)) ip (falls rfl)
  | assignLocal =>
      have bound : operand < depth := reached.slot rfl
      obtain ⟨-, v, -, -, -, proper, -, peeked⟩ := within.peek (show 0 + 1 < depth from enough)
      rw [execute, peeked]
      dsimp only
      rw [if_pos (by rw [within.height]; omega)]
      exact (within.set proper _).orderly ip (flowsOn (falls rfl))
  | equal =>
      obtain ⟨b, one, first, -, lowered⟩ := within.popThen (Nat.lt_of_succ_lt enough)
        fun b m => m.popThen fun a m => m.pushOn (.bool (a.same b))
      have more : 1 < depth - 1 := Nat.lt_sub_of_add_lt enough
      obtain ⟨a, two, second, -, lower⟩ := lowered.popThen more
        fun a m => m.pushOn (.bool (a.same b))
      rw [execute, first, second]
      exact lower.pushOn host trivial ip (falls rfl)
  | greater | less =>
      exact within.twoNumbers host enough fun x y =>
        within.replaceTwo host enough trivial ip (falls rfl)
  | add | subtract | multiply | divide | exponent | modulo =>
      exact within.arithmetic host enough ip (falls rfl) _
  | negate =>
      obtain ⟨-, v, -, -, -, -, -, peeked⟩ := within.peek (show 0 + 1 < depth from enough)
      rw [execute, peeked]
      split
      · rename_i n
        exact (within.set (v := .number n.negate) trivial _).orderly ip (flowsOn (falls rfl))
      · exact raise_safe host Orderly m rfl
  | not =>
      obtain ⟨v, after, popped, -, lowered⟩ := within.popThen enough
        fun v m => m.pushOn (.bool v.falsey)
      rw [execute, popped]
      exact lowered.pushOn host trivial ip (falls rfl)
  | print =>
      obtain ⟨v, after, popped, -, lowered⟩ := within.popThen enough
        fun v m => .next (m.write .out (v.display ++ "\n"))
      rw [execute, popped]
      have written : (after.write .out (v.display ++ "\n")).Within frame rest (depth - 1) :=
        ⟨lowered.frames, lowered.height, lowered.values, lowered.globals, lowered.routine,
          lowered.waiting⟩
      exact written.orderly ip (falls rfl)
  | jump => exact within.jumpBy (by rw [ip]; rfl) (reached.forward rfl)
  | jumpIfFalse =>
      obtain ⟨-, v, -, -, -, -, -, peeked⟩ := within.peek (show 0 + 1 < depth from enough)
      rw [execute, peeked]
      split
      · exact within.jumpBy (by rw [ip]; rfl) (reached.forward rfl)
      · exact within.orderly ip (flowsOn (falls rfl))
  | loop =>
      obtain ⟨bound, flows⟩ := reached.back rfl
      exact within.jumpBy (by rw [ip]; dsimp only at bound ⊢; omega) flows
  | call =>
      obtain ⟨-, callee, -, -, -, proper, -, peeked⟩ := within.peek enough
      rw [execute, peeked]
      exact within.callValue serves proper enough ip (falls rfl)
  | «return» => exact within.leave host enough

end Machine

end Reckoner
