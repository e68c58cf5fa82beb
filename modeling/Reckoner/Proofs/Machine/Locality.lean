import Reckoner.Proofs.Machine.Lifting
import Reckoner.Proofs.Machine.Restoration

/-!
Calls are local. Up to its return a call neither sees nor changes what lies under it on the stack, so
what it does depends on the routine, its arguments, the globals and the world alone.
-/

namespace Reckoner

namespace Machine

/-- Steps until no more than a number of calls are in progress. A call that is over tells what is left
of the fuel. -/
def runCall (host : Host) (depth : Nat) : (fuel : Nat) → Machine → Ending Nat
  | 0, m => .exhausted m
  | fuel + 1, m =>
    match m.step host with
    | .next m => if m.frames.length ≤ depth then .done fuel m else runCall host depth fuel m
    | .finished m => .done fuel m
    | .fault f m => .fault f m
    | .crash reason m => .crash reason m
    | .exhausted m => .exhausted m

/-- The next instruction calls a routine and enters it. The callee stands on the stack right above
`below`, under its arguments. -/
structure Calls (host : Host) (m : Machine) (r : Routine) (below args : List Value)
    (first : Machine) : Prop where
  fetches : ∃ frame rest, m.frames = frame :: rest ∧
    byteAt? frame.routine frame.ip = some Operation.call.byte ∧
    frame.routine.operandAt? (frame.ip.toNat + 1) Operation.call.operand.width = some args.length
  values : m.values = below ++ .routine r :: args
  enters : m.step host = .next first

def ground (m : Machine) (below : List Value) : Ground := ⟨below, m.frames.tail, m.written⟩

def alone (m : Machine) (r : Routine) (args : List Value) (maxFrames : Nat) : Machine :=
  { m with
    stack := ⟨(.routine r :: args).toArray, []⟩
    frames := [{ routine := r, ip := 0, base := 0, last := 0 }]
    maxFrames, written := #[] }

/-- Up to the return of a call, what lies under it is as it was and no call above it begins lower. At
the return there is one value more. -/
def Untouched (g : Ground) : Ending Nat → Prop
  | .exhausted m =>
    ∃ inner above, inner ≠ [] ∧ (∀ frame ∈ inner, g.below.length ≤ frame.base) ∧
      m.frames = inner ++ g.calls ∧ m.values = g.below ++ above
  | .done _ m => m.frames = g.calls ∧ ∃ result, m.values = g.below ++ [result]
  | .fault _ m | .crash _ m => ∃ above, m.values = g.below ++ above

/-- Machines on two grounds that agree on all that is not under the call. -/
structure Aligned (g h : Ground) (a b : Machine) : Prop where
  values : ∃ above, a.values = g.below ++ above ∧ b.values = h.below ++ above
  globals : a.globals = b.globals
  world : a.world = b.world
  written : ∃ more, a.written = g.written ++ more ∧ b.written = h.written ++ more

/-- Two calls on their grounds with the same outcome. -/
def SameCall (g h : Ground) : Ending Nat → Ending Nat → Prop
  | .done fuel a, .done left b => fuel = left ∧ Aligned g h a b ∧
    ∃ result, a.values = g.below ++ [result] ∧ b.values = h.below ++ [result]
  | .fault f a, .fault e b => f.message = e.message ∧ Aligned g h a b
  | .crash reason a, .crash other b => reason = other ∧ Aligned g h a b
  | .exhausted a, .exhausted b => Aligned g h a b
  | _, _ => False

def Stopped (g : Ground) : Ending Nat → Prop
  | .fault f m => f.cause.isLimit = true ∧ ∃ above, m.values = g.below ++ above
  | _ => False

theorem untouched_of_stopped {g : Ground} {ending : Ending Nat} (stopped : Stopped g ending) :
    Untouched g ending := by
  cases ending with
  | fault f m => exact stopped.2
  | _ => exact stopped.elim

def CallOver (g : Ground) : Ending Nat → Ending Nat → Prop
  | .done fuel a, .done left c => fuel = left ∧ a.Over g c ∧ c.Returned
  | .fault f a, .fault e c => f.cause = e.cause ∧ a.Over g c
  | .crash reason a, .crash other c => reason = other ∧ a.Over g c
  | .exhausted a, .exhausted c => a.Over g c ∧ Rooted 0 c.frames
  | _, _ => False

theorem Orderly.isRunning {m : Machine} (orderly : m.Orderly) : m.isRunning = true := by
  obtain ⟨frame, rest, depth, within, -⟩ := orderly
  rw [Machine.isRunning, within.frames]
  rfl

theorem run_runCall {host : Host} (serves : host.Serves) (depth fuel : Nat) {m : Machine}
    (orderly : m.Orderly) :
    m.run host fuel =
      match m.runCall host depth fuel with
      | .done left after => if after.isRunning then after.run host left else .done () after
      | .fault f after => .fault f after
      | .crash reason after => .crash reason after
      | .exhausted after => .exhausted after := by
  induction fuel generalizing m with
  | zero => rfl
  | succ fuel ih =>
      have safe := step_orderly serves orderly
      rw [run, runCall]
      cases stepped : m.step host with
      | next after =>
          rw [stepped] at safe
          have running := Orderly.isRunning safe
          by_cases back : after.frames.length ≤ depth
          · simp [back, running]
          · simp only [back, ↓reduceIte]
            exact ih safe
      | finished after =>
          rw [stepped] at safe
          simp [safe.1.idle]
      | _ => rfl

theorem Rooted.length_pos {root : Nat} {frames : List Frame} (rooted : Rooted root frames) :
    0 < frames.length := by
  cases frames with
  | nil => exact rooted.elim
  | cons frame rest => simp

section

variable {host : Host} (honest : host.Honest) (stackless : host.Stackless) {g : Ground}
  {a c : Machine}

include honest stackless

theorem runCall_over (atop : a.Over g c) (orderly : c.Orderly) (rooted : Rooted 0 c.frames)
    (fuel : Nat) :
    Stopped g (a.runCall host g.calls.length fuel) ∨
      CallOver g (a.runCall host g.calls.length fuel) (c.runCall host 0 fuel) := by
  induction fuel generalizing a c with
  | zero => exact .inr ⟨atop, rooted⟩
  | succ fuel ih =>
      have lifts := step_lifts stackless atop orderly rooted
      have safe := step_orderly honest.serves orderly
      rw [runCall, runCall]
      generalize a.step host = left at lifts ⊢
      generalize c.step host = right at lifts safe ⊢
      rcases lifts with limited | same
      · cases left with
        | fault f after => exact .inl limited
        | _ => exact limited.elim
      · cases left <;> cases right <;> try exact same.elim
        · obtain ⟨later, inside⟩ := same
          have deep := inside.length_pos
          have deeper := congrArg List.length later.frames
          rw [List.length_append, List.length_map] at deeper
          dsimp only
          rw [if_neg (by omega), if_neg (by omega)]
          exact ih later safe inside
        · obtain ⟨later, returned, -⟩ := same
          have back := congrArg List.length later.frames
          rw [returned.1, List.map_nil, List.nil_append] at back
          dsimp only
          rw [if_pos (Nat.le_of_eq back)]
          exact .inr ⟨rfl, later, returned⟩
        · obtain ⟨later, returned, -⟩ := same
          exact .inr ⟨rfl, later, returned⟩
        · exact .inr same
        · exact .inr same

end

theorem CallOver.untouched {g : Ground} {first second : Ending Nat}
    (atop : CallOver g first second) : Untouched g first := by
  cases first with
  | done fuel a =>
      cases second with
      | done left c =>
          obtain ⟨-, atop, idle, result, values⟩ := atop
          refine ⟨?_, result, ?_⟩
          · rw [atop.frames, idle]
            rfl
          · rw [atop.values, values]
      | _ => exact atop.elim
  | exhausted a =>
      cases second with
      | exhausted c =>
          obtain ⟨atop, rooted⟩ := atop
          refine ⟨_, _, ?_, ?_, atop.frames, atop.values⟩
          · have deep := rooted.length_pos
            intro nothing
            rw [List.map_eq_nil_iff.mp nothing] at deep
            exact absurd deep (Nat.lt_irrefl 0)
          · intro frame member
            obtain ⟨inner, -, rfl⟩ := List.mem_map.mp member
            exact Nat.le_add_right ..
      | _ => exact atop.elim
  | fault f a =>
      cases second with
      | fault e c => exact ⟨_, atop.2.values⟩
      | _ => exact atop.elim
  | crash reason a =>
      cases second with
      | crash other c => exact ⟨_, atop.2.values⟩
      | _ => exact atop.elim

theorem Over.aligned {g h : Ground} {a b c : Machine} (first : a.Over g c) (second : b.Over h c) :
    Aligned g h a b where
  values := ⟨c.values, first.values, second.values⟩
  globals := first.globals.trans second.globals.symm
  world := first.world.trans second.world.symm
  written := ⟨c.written, first.written, second.written⟩

theorem CallOver.same {g h : Ground} {first second call : Ending Nat} (one : CallOver g first call)
    (other : CallOver h second call) : SameCall g h first second := by
  cases call with
  | done fuel c =>
      cases first <;> cases second <;> first | exact one.elim | exact other.elim | skip
      obtain ⟨rfl, left, -, result, values⟩ := one
      obtain ⟨rfl, right, -⟩ := other
      refine ⟨rfl, left.aligned right, result, ?_, ?_⟩
      · rw [left.values, values]
      · rw [right.values, values]
  | fault f c =>
      cases first <;> cases second <;> first | exact one.elim | exact other.elim | skip
      obtain ⟨cause, left⟩ := one
      obtain ⟨same, right⟩ := other
      exact ⟨congrArg Cause.message (cause.trans same.symm), left.aligned right⟩
  | crash reason c =>
      cases first <;> cases second <;> first | exact one.elim | exact other.elim | skip
      exact ⟨one.1.trans other.1.symm, one.2.aligned other.2⟩
  | exhausted c =>
      cases first <;> cases second <;> first | exact one.elim | exact other.elim | skip
      exact one.1.aligned other.1

section

variable {host : Host} {m first : Machine} {r : Routine} {below args : List Value}

theorem Calls.entered (calls : m.Calls host r below args first) {twin : Machine} {limit : Nat}
    (globals : m.globals = twin.globals) (world : m.world = twin.world)
    (bound : m.maxFrames ≤ limit) :
    first.Over (first.ground below) (twin.alone r args limit) ∧ r.arity = args.length ∧
      first.frames.tail.length = m.frames.length := by
  obtain ⟨frame, rest, frames, byte, read⟩ := calls.fetches
  have stepped := calls.enters
  have values : (m.fetch frame rest .call).values = below ++ .routine r :: args := by
    rw [fetch_values, calls.values]
  have height : (m.fetch frame rest .call).height = below.length + args.length + 1 := by
    rw [← length_values, values, List.length_append, List.length_cons]
    rfl
  rw [step_eq frames byte read, execute, peekThen_eq values rfl, callValue, enter] at stepped
  split at stepped
  · cases stepped
  · rename_i arity
    split at stepped
    · cases stepped
    · cases stepped
      refine ⟨⟨?_, values, ?_, ?_, ?_, ?_⟩, Decidable.not_not.mp arity, ?_⟩
      · simp [height, ground, alone, Frame.raised]
        omega
      · simp [alone, globals]
      · simp [alone, world]
      · simpa [alone] using bound
      · simp [ground, alone]
      · simp [frames]

theorem exists_calls {frame : Frame} {rest : List Frame} (frames : m.frames = frame :: rest)
    (byte : byteAt? frame.routine frame.ip = some Operation.call.byte)
    (read : frame.routine.operandAt? (frame.ip.toNat + 1) Operation.call.operand.width =
      some args.length)
    (values : m.values = below ++ .routine r :: args) (arity : r.arity = args.length)
    (room : m.frames.length < m.maxFrames) : ∃ first, m.Calls host r below args first := by
  have whole : (m.fetch frame rest .call).values = below ++ .routine r :: args := by
    rw [fetch_values, values]
  have deep : ¬(m.fetch frame rest .call).maxFrames ≤ (m.fetch frame rest .call).frames.length := by
    rw [frames] at room
    simpa using room
  obtain ⟨first, enters⟩ : ∃ first, m.step host = .next first := by
    rw [step_eq frames byte read, execute, peekThen_eq whole rfl, callValue, enter,
      if_neg (not_not.mpr arity), if_neg deep]
    exact ⟨_, rfl⟩
  exact ⟨first, ⟨frame, rest, frames, byte, read⟩, values, enters⟩

theorem alone_orderly {twin : Machine} {limit : Nat} (compiled : r.Compiled)
    (propers : ∀ v ∈ args, v.Proper) (globals : twin.ProperGlobals)
    (arity : r.arity = args.length) : (twin.alone r args limit).Orderly := by
  refine ⟨_, [], args.length + 1, ⟨rfl, ?_, ?_, globals, compiled, trivial⟩, 0, rfl, .start arity⟩
  · simp [alone, Machine.height, Stack.height]
  · intro v member
    rcases List.mem_cons.mp member with rfl | arg
    · exact compiled
    · exact propers v arg

end

/-- Calls are local. Up to its return a call leaves alone what lies under it, and then its result is
all that is added. Calls with the same arguments, globals and world go alike on any two stacks, unless
one of them runs into a limit. -/
theorem calls_are_local {host : Host} (honest : host.Honest) (stackless : host.Stackless)
    {m first : Machine} {r : Routine} {below args : List Value} (compiled : r.Compiled)
    (propers : ∀ v ∈ args, v.Proper) (globals : m.ProperGlobals)
    (calls : m.Calls host r below args first) :
    (∀ fuel, Untouched (first.ground below) (first.runCall host m.frames.length fuel)) ∧
      ∀ (n second : Machine) (other : List Value), n.Calls host r other args second →
        n.globals = m.globals → n.world = m.world → ∀ fuel,
          Stopped (first.ground below) (first.runCall host m.frames.length fuel) ∨
            Stopped (second.ground other) (second.runCall host n.frames.length fuel) ∨
            SameCall (first.ground below) (second.ground other)
              (first.runCall host m.frames.length fuel)
              (second.runCall host n.frames.length fuel) := by
  -- Both calls run as one alone whose limit is no tighter than theirs.
  have alike : ∀ (n second : Machine) (other : List Value), n.Calls host r other args second →
      n.globals = m.globals → n.world = m.world → ∀ limit, n.maxFrames ≤ limit → ∀ fuel,
        Stopped (second.ground other) (second.runCall host n.frames.length fuel) ∨
          CallOver (second.ground other) (second.runCall host n.frames.length fuel)
            ((m.alone r args limit).runCall host 0 fuel) := by
    intro n second other calling same world limit bound fuel
    obtain ⟨atop, arity, depth⟩ := calling.entered same world bound
    have orderly : (m.alone r args limit).Orderly := alone_orderly compiled propers globals arity
    have runs := runCall_over honest stackless atop orderly rfl fuel
    rw [← depth]
    exact runs
  constructor
  · intro fuel
    rcases alike m first below calls rfl rfl _ (Nat.le_refl _) fuel with stopped | atop
    · exact untouched_of_stopped stopped
    · exact atop.untouched
  · intro n second other calling same world fuel
    rcases alike m first below calls rfl rfl _ (Nat.le_max_left _ n.maxFrames) fuel with
      stopped | one
    · exact .inl stopped
    · rcases alike n second other calling same world _ (Nat.le_max_right m.maxFrames _) fuel with
        stopped | two
      · exact .inr (.inl stopped)
      · exact .inr (.inr (one.same two))

end Machine

theorem Host.standard_stackless : Host.standard.Stackless := by
  intro n args _
  rw [Host.standard]
  split
  · intro d
    rfl
  · intro d
    rfl
  · rfl

namespace Machine

def aboutToCall (below : List Value) (r : Routine) : Machine :=
  { Machine.new 0 ⟨0, 0⟩ with
    stack := ⟨(below ++ [Value.routine r]).toArray, []⟩
    frames := [{
      routine := { Routine.empty ⟨0, 0⟩ "" with code := #[Operation.call.byte, 0] }
      ip := 0, base := 0, last := 0 }] }

/-- A script that calls a function from within itself goes alike on an empty stack and on one with two
values. -/
theorem calls_are_local_recursion :
    ∃ r first second,
      compile 0 "fn f(n) { if n < 1: return 0; return f(n - 1) + n; } print f(3);" = .ok r ∧
      (aboutToCall [] r).Calls Host.standard r [] [] first ∧
      (aboutToCall [.foreign, .bool true] r).Calls Host.standard r [.foreign, .bool true] [] second ∧
      ∀ fuel, Stopped (first.ground []) (first.runCall Host.standard 1 fuel) ∨
        Stopped (second.ground [.foreign, .bool true]) (second.runCall Host.standard 1 fuel) ∨
        SameCall (first.ground []) (second.ground [.foreign, .bool true])
          (first.runCall Host.standard 1 fuel) (second.runCall Host.standard 1 fuel) := by
  have accepted : ((compile 0
      "fn f(n) { if n < 1: return 0; return f(n - 1) + n; } print f(3);").toOption.any
        fun r => decide (r.arity = 0)) = true := by
    with_unfolding_all rfl
  obtain ⟨r, compiled⟩ := exists_ok (Option.isSome_of_any accepted)
  rw [compiled] at accepted
  have arity : r.arity = 0 := of_decide_eq_true accepted
  have propers : ∀ v ∈ ([] : List Value), v.Proper := by simp
  have calling : ∀ below, ∃ first, (aboutToCall below r).Calls Host.standard r below [] first := by
    intro below
    have values : (aboutToCall below r).values = below ++ [.routine r] := by
      simp [Machine.values, Stack.values, aboutToCall]
    exact exists_calls rfl (by decide) (by decide) values arity (show 1 < 64 by decide)
  obtain ⟨first, one⟩ := calling []
  obtain ⟨second, two⟩ := calling [.foreign, .bool true]
  refine ⟨r, first, second, compiled, one, two, ?_⟩
  have globals : (aboutToCall [] r).ProperGlobals := (Machine.new_rests 0 ⟨0, 0⟩).globals
  exact (calls_are_local Host.standard_honest Host.standard_stackless
    ⟨0, _, r, .inl compiled, .self⟩ propers globals one).2 _ second _ two rfl rfl

end Machine

end Reckoner
