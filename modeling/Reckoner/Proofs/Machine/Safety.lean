import Reckoner.Proofs.Machine.Order

/-!
Compiled code never goes wrong. A run of what the compiler accepted stays in order from its first
step to its last, whatever it calls and however it ends.
-/

namespace Reckoner

namespace Machine

inductive Reaches (host : Host) (first : Machine) : Machine → Prop where
  | here : Reaches host first first
  | next {m after : Machine} (reaches : Reaches host first m) (stepped : m.step host = .next after) :
    Reaches host first after

theorem Within.fetch {m : Machine} {frame : Frame} {rest : List Frame} {depth : Nat}
    (within : m.Within frame rest depth) (op : Operation) :
    (m.fetch frame rest op).Within (frame.fetch op) rest depth where
  frames := rfl
  height := by rw [← length_values, fetch_values]; exact within.length
  values := by rw [fetch_values]; exact within.values
  globals := by
    intro name v found
    rw [global?, fetch_globals] at found
    exact within.globals name v found
  routine := within.routine
  waiting := within.waiting

theorem fetched {frame : Frame} {p depth : Nat} {d : Script.Directive} (ip : frame.ip = p)
    (reached : Script.Directive.Reached frame.routine p d depth) :
    byteAt? frame.routine frame.ip = some d.op.byte ∧
      frame.routine.operandAt? (frame.ip.toNat + 1) d.op.operand.width = some d.operand := by
  constructor
  · rw [ip, byteAt?, if_neg (by omega), Int.toNat_natCast]
    exact reached.byte
  · rw [ip, Int.toNat_natCast]
    exact reached.operand

theorem Within.step_eq (host : Host) {m : Machine} {frame : Frame} {rest : List Frame} {depth : Nat}
    (within : m.Within frame rest depth) {p : Nat} (ip : frame.ip = p)
    (flows : frame.routine.Flows p depth) :
    ∃ d, Script.Directive.Reached frame.routine p d depth ∧ ∀ twin : Machine, twin.frames = m.frames →
      twin.step host = execute host (twin.fetch frame rest d.op) (frame.fetch d.op) d.op d.operand := by
  obtain ⟨unit, isGlobal, f, marked, carries⟩ := within.routine.carries
  obtain ⟨d, reached⟩ := carries.reached flows
  obtain ⟨byte, read⟩ := fetched ip reached
  exact ⟨d, reached, fun twin frames => Machine.step_eq (frames.trans within.frames) byte read⟩

theorem step_orderly {host : Host} (serves : host.Serves) {m : Machine} (orderly : m.Orderly) :
    (m.step host).Safe host Orderly := by
  obtain ⟨frame, rest, depth, within, p, ip, flows⟩ := orderly
  obtain ⟨d, reached, stepped⟩ := within.step_eq host ip flows
  rw [stepped m rfl]
  refine execute_safe serves (within.fetch d.op) reached ?_
  rw [Frame.fetch, ip, Script.Directive.size]
  push_cast
  omega

theorem Reaches.orderly {host : Host} (serves : host.Serves) {first m : Machine}
    (start : first.Orderly) (reaches : Reaches host first m) : m.Orderly := by
  induction reaches with
  | here => exact start
  | next reaches stepped ih =>
      have safe := step_orderly serves ih
      rw [stepped] at safe
      exact safe

theorem pushAll_eq {m full : Machine} {vs : List Value} (pushed : m.pushAll vs = .ok full) :
    ∃ s : Stack, full = m.withStack s ∧ s.values = m.values ++ vs := by
  induction vs generalizing m with
  | nil =>
      rw [pushAll] at pushed
      exact ⟨m.stack, (Except.ok.inj pushed).symm, (List.append_nil _).symm⟩
  | cons v rest ih =>
      rw [pushAll] at pushed
      by_cases room : m.HasRoom
      · rw [push_eq room] at pushed
        obtain ⟨s, rfl, values⟩ := ih pushed
        refine ⟨s, rfl, ?_⟩
        rw [values, Machine.values, withStack, Stack.values_push, List.append_assoc]
        rfl
      · rw [push, if_pos (Nat.le_of_not_lt room)] at pushed
        cases pushed

/-- A call of a routine on a machine at rest begins to run. -/
def Starts (m : Machine) (r : Routine) (args : List Value) (first : Machine) : Prop :=
  ∃ full, m.prepare.pushAll (.routine r :: args) = .ok full ∧ full.enter r args.length = .next first

theorem enter_cases (m : Machine) (r : Routine) (count : Nat) :
    (∃ first, m.enter r count = .next first) ∨
      ∃ f, m.enter r count = .fault f m ∧ f.cause.isOrdinary = true := by
  rw [enter]
  split
  · exact .inr ⟨_, rfl, rfl⟩
  · split
    · exact .inr ⟨_, rfl, rfl⟩
    · exact .inl ⟨_, rfl⟩

section

variable {host : Host} {m : Machine} (rests : m.Rests)

include rests

theorem Rests.pushAll {callee : Value} {args : List Value} (proper : callee.Proper)
    (propers : ∀ v ∈ args, v.Proper) {full : Machine}
    (pushed : m.prepare.pushAll (callee :: args) = .ok full) :
    full.frames = [] ∧ full.values = m.values ++ callee :: args ∧ (∀ v ∈ full.values, v.Proper) ∧
      full.ProperGlobals := by
  obtain ⟨s, rfl, values⟩ := pushAll_eq pushed
  refine ⟨rfl, values, ?_, rests.globals⟩
  intro v member
  rw [Machine.values, withStack, values] at member
  rcases List.mem_append.mp member with old | new
  · exact rests.values v old
  · rcases List.mem_cons.mp new with rfl | arg
    · exact proper
    · exact propers v arg

theorem Rests.orderly {r : Routine} {args : List Value} (compiled : r.Compiled)
    (propers : ∀ v ∈ args, v.Proper) {first : Machine} (starts : m.Starts r args first) :
    first.Orderly := by
  obtain ⟨full, pushed, entered⟩ := starts
  obtain ⟨frames, values, proper, globals⟩ :=
    rests.pushAll (show Value.Proper (.routine r) from compiled) propers pushed
  have height : full.height = m.height + (args.length + 1) := by
    rw [← length_values, values, List.length_append, List.length_cons, length_values]
  rw [enter] at entered
  split at entered
  · cases entered
  · rename_i arity
    split at entered
    · cases entered
    · rw [← Step.next.inj entered]
      refine ⟨_, full.frames, args.length + 1, ⟨rfl, ?_, proper, globals, compiled, ?_⟩, 0, rfl,
        .start (Decidable.not_not.mp arity)⟩
      · show full.height = full.height - args.length - 1 + (args.length + 1)
        omega
      · rw [frames]
        trivial

end

/-- A fault that a native handed out, during a run or outside. -/
def RaisedByNative (host : Host) (f : Fault) : Prop :=
  (∃ n args before after, performBusy host n args before = .fault f after) ∨
    ∃ fuel n args before after,
      (host n args).perform (callGlobal host fuel) (interpret host fuel) before = .fault f after

def CrashedInNative (host : Host) (reason : String) : Prop :=
  (∃ n args before after, performBusy host n args before = .crash reason after) ∨
    ∃ fuel n args before after,
      (host n args).perform (callGlobal host fuel) (interpret host fuel) before =
        .crash reason after

end Machine

/-- An activity ends well, with an ordinary fault, through a native, or not with the given fuel. -/
def Ending.Safe {α : Type} (host : Host) : Ending α → Prop
  | .done _ m => m.Rests
  | .fault f _ => f.cause.isOrdinary = true ∨ Machine.RaisedByNative host f
  | .crash reason _ => Machine.CrashedInNative host reason
  | .exhausted _ => True

def Step.Settled (host : Host) : Step → Prop
  | .next m | .finished m => m.Rests ∧ 0 < m.height
  | .fault f _ => f.cause.isOrdinary = true ∨ Machine.RaisedByNative host f
  | .crash reason _ => Machine.CrashedInNative host reason
  | .exhausted _ => True

namespace Machine

theorem run_safe {host : Host} (serves : host.Serves) {m : Machine} (orderly : m.Orderly)
    (fuel : Nat) :
    (m.run host fuel).Safe host ∧ ∀ after, m.run host fuel = .done () after → 0 < after.height := by
  induction fuel generalizing m with
  | zero => exact ⟨trivial, nofun⟩
  | succ fuel ih =>
      have safe := step_orderly serves orderly
      rw [run]
      split
      · rename_i next stepped
        rw [stepped] at safe
        exact ih safe
      · rename_i last stepped
        rw [stepped] at safe
        refine ⟨safe.1, fun after same => ?_⟩
        cases same
        exact safe.2
      · rename_i f last stepped
        rw [stepped] at safe
        refine ⟨safe.imp_right fun raised => .inl ?_, nofun⟩
        obtain ⟨n, args, before, performed⟩ := raised
        exact ⟨n, args, before, _, performed⟩
      · rename_i reason last stepped
        rw [stepped] at safe
        obtain ⟨n, args, before, performed⟩ := safe
        exact ⟨.inl ⟨n, args, before, _, performed⟩, nofun⟩
      · rename_i last stepped
        rw [stepped] at safe
        exact safe.elim

section

variable {host : Host} (respects : host.Respects) {m : Machine} (rests : m.Rests)

include respects rests

theorem Rests.callNative (fuel : Nat) {n : Native} {args : List Value} {full : Machine}
    (propers : ∀ v ∈ args, v.Proper) (pushed : m.prepare.pushAll (.native n :: args) = .ok full) :
    (full.callNative (fun n args m =>
      (host n args).perform (callGlobal host fuel) (interpret host fuel) m) n args.length).Settled
        host := by
  obtain ⟨frames, values, proper, globals⟩ :=
    rests.pushAll (show Value.Proper (.native n) from trivial) propers pushed
  have height : full.height = m.height + (args.length + 1) := by
    rw [← length_values, values, List.length_append, List.length_cons, length_values]
  rw [Machine.callNative]
  split
  · exact .inl rfl
  · dsimp only
    have top : full.stack.top args.length = args :=
      Stack.top_eq (values.trans (List.append_cons ..)) rfl
    rw [top]
    split
    · rename_i v after performed
      have answered := respects.idle _ _ _ _ _ _ propers globals performed
      have bound : full.height - args.length - 1 ≤ after.stack.height := by
        rw [answered.stack]
        exact Nat.le_trans (Nat.sub_le ..) (Nat.sub_le ..)
      have kept : (after.stack.resize (full.height - args.length - 1)).values = m.values := by
        rw [Stack.values_resize bound, answered.stack, show full.stack.values = full.values from rfl,
          values, height, show m.height + (args.length + 1) - args.length - 1 = m.values.length by
            rw [length_values]; omega, List.take_left]
      generalize baseEq :
        ({ after with stack := after.stack.resize (full.height - args.length - 1) } : Machine) = base
      have baseValues : base.values = m.values := by
        rw [← baseEq]
        exact kept
      by_cases room : base.HasRoom
      · rw [pushOn_eq room]
        refine ⟨⟨?_, ?_, ?_⟩, ?_⟩
        · rw [isRunning, withStack, ← baseEq]
          show (!after.frames.isEmpty) = false
          rw [answered.frames, frames]
          rfl
        · intro w member
          rw [Machine.values, withStack, Stack.values_push] at member
          rcases List.mem_append.mp member with old | new
          · exact rests.values w (by rw [← baseValues]; exact old)
          · rw [List.mem_singleton.mp new]
            exact answered.proper
        · rw [← baseEq]
          exact answered.globals
        · rw [← length_values, Machine.values, withStack, Stack.values_push, List.length_append]
          exact Nat.succ_pos _
      · rw [pushOn_full room]
        exact .inl rfl
    · exact .inr (.inr ⟨fuel, n, args, _, _, by assumption⟩)
    · exact .inr ⟨fuel, n, args, _, _, by assumption⟩
    · trivial

theorem invoke_safe {callee : Value} {args : List Value} (proper : callee.Proper)
    (propers : ∀ v ∈ args, v.Proper) (fuel : Nat) :
    (invoke host fuel callee args m.prepare).Safe host ∧
      ∀ after, invoke host fuel callee args m.prepare = .done () after → 0 < after.height := by
  cases fuel with
  | zero =>
      rw [invoke]
      exact ⟨trivial, nofun⟩
  | succ fuel =>
      rw [invoke]
      split
      · exact ⟨.inl rfl, nofun⟩
      · rename_i full pushed
        cases callee with
        | routine r =>
            simp only [callValue]
            rcases enter_cases full r args.length with ⟨first, entered⟩ | ⟨f, raised, ordinary⟩
            · rw [entered]
              exact run_safe respects.serves (rests.orderly proper propers ⟨full, pushed, entered⟩) fuel
            · rw [raised]
              exact ⟨.inl ordinary, nofun⟩
        | native n =>
            have settled := Rests.callNative respects rests fuel propers pushed
            simp only [callValue]
            generalize full.callNative _ n args.length = step at settled ⊢
            cases step with
            | next after | finished after =>
                refine ⟨settled.1, fun last same => ?_⟩
                cases same
                exact settled.2
            | fault f after => exact ⟨settled, nofun⟩
            | crash reason after => exact ⟨settled, nofun⟩
            | exhausted after => exact ⟨trivial, nofun⟩
        | _ => exact ⟨.inl rfl, nofun⟩

theorem interpret_safe {r : Routine} (compiled : r.Compiled) (fuel : Nat) :
    (m.interpret host fuel r).Safe host := by
  cases fuel with
  | zero =>
      rw [interpret]
      trivial
  | succ fuel =>
      have none : ∀ v ∈ ([] : List Value), v.Proper := nofun
      have invoked :=
        (invoke_safe respects rests (show Value.Proper (.routine r) from compiled) none fuel).1
      rw [interpret, if_neg (by rw [rests.idle]; exact Bool.false_ne_true)]
      generalize invoke host fuel (.routine r) [] m.prepare = ending at invoked ⊢
      cases ending <;> exact invoked

theorem callGlobal_safe (name : String) {args : List Value} (propers : ∀ v ∈ args, v.Proper)
    (fuel : Nat) : (m.callGlobal host fuel name args).Safe host := by
  cases fuel with
  | zero =>
      rw [callGlobal]
      trivial
  | succ fuel =>
      rw [callGlobal, if_neg (by rw [rests.idle]; exact Bool.false_ne_true)]
      split
      · exact .inl rfl
      · rename_i callee found
        obtain ⟨invoked, result⟩ :=
          invoke_safe respects rests (rests.globals name callee found) propers fuel
        generalize invoke host fuel callee args m.prepare = ending at invoked result ⊢
        cases ending with
        | done _ after =>
            have positive := result after rfl
            rw [← length_values] at positive
            have whole := (List.dropLast_concat_getLast (List.ne_nil_of_length_pos positive)).symm
            dsimp only
            rw [pop_eq whole]
            refine ⟨invoked.idle, fun w member => invoked.values w ?_, invoked.globals⟩
            rw [Machine.values, withStack, Stack.values_below whole] at member
            exact (List.dropLast_sublist _).mem member
        | _ => exact invoked

end

end Machine

/-- Compiled code never goes wrong. Whatever an accepted source or a global function does on a machine
at rest, every step of it finds its instruction, its operands and its values, and only ordinary
faults or those of natives are raised. -/
theorem compiled_code_stays_inside {host : Host} (respects : host.Respects) {m : Machine}
    (rests : m.Rests) :
    (∀ unit source r,
      (compileBytes unit source = .ok r ∨ compileExpressionBytes unit source = .ok r) →
      (∀ first state, m.Starts r [] first → Machine.Reaches host first state →
        (state.step host).Safe host Machine.Orderly) ∧
      ∀ fuel, (m.interpret host fuel r).Safe host) ∧
    ∀ name args, (∀ v ∈ args, v.Proper) →
      (∀ r first state, m.global? name = some (.routine r) → m.Starts r args first →
        Machine.Reaches host first state → (state.step host).Safe host Machine.Orderly) ∧
      ∀ fuel, (m.callGlobal host fuel name args).Safe host := by
  constructor
  · intro unit source r accepted
    have compiled : r.Compiled := ⟨unit, source, r, accepted, .self⟩
    have none : ∀ v ∈ ([] : List Value), v.Proper := nofun
    refine ⟨fun first state starts reaches => ?_, Machine.interpret_safe respects rests compiled⟩
    exact Machine.step_orderly respects.serves
      (reaches.orderly respects.serves (rests.orderly compiled none starts))
  · intro name args propers
    refine ⟨fun r first state found starts reaches => ?_,
      Machine.callGlobal_safe respects rests name propers⟩
    have compiled : r.Compiled := rests.globals name _ found
    exact Machine.step_orderly respects.serves
      (reaches.orderly respects.serves (rests.orderly compiled propers starts))

theorem Host.standard_respects : Host.standard.Respects := by
  have answers : ∀ call interpret n args m v after, m.ProperGlobals →
      (Host.standard n args).perform call interpret m = .done v after → m.Answered after v := by
    intro call interpret n args m v after globals performed
    rw [Host.standard] at performed
    split at performed
    · rw [Action.perform] at performed
      generalize m.world.readClock = read at performed
      cases performed
      exact ⟨trivial, rfl, rfl, globals⟩
    · rw [Action.perform] at performed
      generalize m.world.draw = drawn at performed
      cases performed
      exact ⟨trivial, rfl, rfl, globals⟩
    · rw [Action.perform] at performed
      cases performed
  constructor
  · intro n args m v after _ globals performed
    exact answers _ _ n args m v after globals performed
  · intro fuel n args m v after _ globals performed
    exact answers _ _ n args m v after globals performed

theorem Machine.new_global {maxFrames : Int} {world : World} {name : String} {v : Value}
    (found : (Machine.new maxFrames world).global? name = some v) :
    ∃ n ∈ Machine.standardNatives, v = .native n := by
  simp only [Machine.global?, Machine.new, Machine.standardNatives, List.foldl_cons, List.foldl_nil,
    Machine.define, Std.ExtTreeMap.getElem?_insert] at found
  split at found
  · exact ⟨_, List.mem_cons_of_mem _ List.mem_cons_self, (Option.some.inj found).symm⟩
  · split at found
    · exact ⟨_, List.mem_cons_self, (Option.some.inj found).symm⟩
    · exact absurd found (by simp [Machine.setMaxFrames])

theorem Machine.new_rests (maxFrames : Int) (world : World) : (Machine.new maxFrames world).Rests := by
  refine ⟨rfl, nofun, ?_⟩
  intro name v found
  obtain ⟨n, -, rfl⟩ := Machine.new_global found
  trivial

/-- A loop that calls a function with each of its numbers. -/
theorem compiled_code_stays_inside_loop :
    ∃ r, compile 0 "fn f(x) = x * 2; for var i = 0; i < 3; i += 1: print f(i);" = .ok r ∧
      ∀ fuel, ((Machine.new 0 ⟨0, 0⟩).interpret Host.standard fuel r).Safe Host.standard := by
  obtain ⟨r, compiled⟩ := exists_ok (show (compile 0
    "fn f(x) = x * 2; for var i = 0; i < 3; i += 1: print f(i);").toOption.isSome = true by
      with_unfolding_all rfl)
  exact ⟨r, compiled, ((compiled_code_stays_inside Host.standard_respects
    (Machine.new_rests 0 ⟨0, 0⟩)).1 0 _ r (.inl compiled)).2⟩

end Reckoner
