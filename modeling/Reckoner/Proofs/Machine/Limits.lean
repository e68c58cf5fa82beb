import Reckoner.Proofs.Machine.Headroom
import Reckoner.Proofs.Machine.Meaning

/-!
Limits in the hands of a host. Whatever a host pushes, pops, defines, runs and calls, with whatever
natives, no machine it meets on the way has more calls in progress or more values than allowed.
-/

namespace Reckoner

inductive Machine.Request where
  | push (v : Value)
  | pop
  | define (name : String) (v : Value)
  | interpret (r : Routine)
  | call (name : String) (args : List Value)

namespace Machine

/-- The machine after a request. One that is refused leaves it as it was. -/
def attend (host : Host) (fuel : Nat) : Request → Machine → Machine
  | .push v, m =>
    match m.push v with
    | .ok after => after
    | .error _ => m
  | .pop, m =>
    match m.pop with
    | .ok (_, after) => after
    | .error _ => m
  | .define name v, m => m.define name v
  | .interpret r, m => (m.interpret host fuel r).machine
  | .call name args, m => (m.callGlobal host fuel name args).machine

inductive Attends (host : Host) (first : Machine) : Machine → Prop where
  | here : Attends host first first
  | next {m : Machine} (attends : Attends host first m) (fuel : Nat) (q : Request) :
    Attends host first (m.attend host fuel q)

/-- What can be going on: a request, the call of a value, a run, or a native, which may call back into
the machine only if no run is in progress. -/
inductive Activity where
  | request (q : Request)
  | call (callee : Value) (args : List Value)
  | run
  | native (busy : Bool) (action : Action)

/-- In the course of an activity that begins on the first machine, the second machine is met. -/
inductive Meets (host : Host) : Activity → Machine → Machine → Prop where
  | here {activity : Activity} {m : Machine} : Meets host activity m m
  | attended {fuel : Nat} {q : Request} {m : Machine} : Meets host (.request q) m (m.attend host fuel q)
  | interpret {r : Routine} {m now : Machine} (idle : m.isRunning = false)
    (inside : Meets host (.call (.routine r) []) m.prepare now) : Meets host (.request (.interpret r)) m now
  | named {name : String} {callee : Value} {args : List Value} {m now : Machine}
    (idle : m.isRunning = false) (found : m.global? name = some callee)
    (inside : Meets host (.call callee args) m.prepare now) : Meets host (.request (.call name args)) m now
  | ended {fuel : Nat} {callee : Value} {args : List Value} {m : Machine} :
    Meets host (.call callee args) m (invoke host fuel callee args m).machine
  | pushed {callee : Value} {args some : List Value} {m full : Machine} (first : some <+: callee :: args)
    (pushed : m.pushAll some = .ok full) : Meets host (.call callee args) m full
  | routine {r : Routine} {args : List Value} {m full first now : Machine}
    (pushed : m.pushAll (.routine r :: args) = .ok full) (entered : full.enter r args.length = .next first)
    (inside : Meets host .run first now) : Meets host (.call (.routine r) args) m now
  | native {n : Native} {args : List Value} {m full now : Machine}
    (pushed : m.pushAll (.native n :: args) = .ok full) (arity : n.arity = args.length)
    (inside : Meets host (.native false (host n (full.stack.top args.length))) full now) :
    Meets host (.call (.native n) args) m now
  | stepped {m : Machine} : Meets host .run m (m.step host).machine
  | next {m after now : Machine} (stepped : m.step host = .next after) (later : Meets host .run after now) :
    Meets host .run m now
  | inside {m now : Machine} {frame : Frame} {rest : List Frame} {operand : Nat} {n : Native}
    (frames : m.frames = frame :: rest)
    (byte : byteAt? frame.routine frame.ip = some Operation.call.byte)
    (read : frame.routine.operandAt? (frame.ip.toNat + 1) Operation.call.operand.width = some operand)
    (callee : m.peek operand = .ok (.native n)) (arity : n.arity = operand)
    (inside : Meets host (.native true (host n (m.stack.top operand))) (m.fetch frame rest .call) now) :
    Meets host .run m now
  | height {busy : Bool} {next : Nat → Action} {m now : Machine}
    (later : Meets host (.native busy (next m.height)) m now) :
    Meets host (.native busy (.height next)) m now
  | define {busy : Bool} {name : String} {v : Value} {next : Action} {m now : Machine}
    (later : Meets host (.native busy next) (m.define name v) now) :
    Meets host (.native busy (.define name v next)) m now
  | push {busy : Bool} {v : Value} {next : Action} {m after now : Machine} (pushed : m.push v = .ok after)
    (later : Meets host (.native busy next) after now) : Meets host (.native busy (.push v next)) m now
  | full {busy : Bool} {v : Value} {next : Action} {cause : Cause} {m now : Machine}
    (refused : m.push v = .error cause) (later : Meets host (.native busy next) m now) :
    Meets host (.native busy (.push v next)) m now
  | clock {busy : Bool} {next : Decimal → Action} {m now : Machine}
    (later : Meets host (.native busy (next m.world.readClock.1))
      { m with world := m.world.readClock.2 } now) : Meets host (.native busy (.clock next)) m now
  | random {busy : Bool} {next : Decimal → Action} {m now : Machine}
    (later : Meets host (.native busy (next m.world.draw.1)) { m with world := m.world.draw.2 } now) :
    Meets host (.native busy (.random next)) m now
  | refusedCall {name : String} {args : List Value} {next : Except Fault Value → Action} {m now : Machine}
    (later : Meets host (.native true (next (.error (m.faultOf .alreadyRunning)))) m now) :
    Meets host (.native true (.call name args next)) m now
  | refusedRun {r : Routine} {next : Option Fault → Action} {m now : Machine}
    (later : Meets host (.native true (next (some (m.faultOf .alreadyRunning)))) m now) :
    Meets host (.native true (.interpret r next)) m now
  | called {name : String} {args : List Value} {next : Except Fault Value → Action} {m now : Machine}
    (inside : Meets host (.request (.call name args)) m now) :
    Meets host (.native false (.call name args next)) m now
  | calledDone {fuel : Nat} {name : String} {args : List Value} {next : Except Fault Value → Action}
    {v : Value} {m after now : Machine} (done : m.callGlobal host fuel name args = .done v after)
    (later : Meets host (.native false (next (.ok v))) after now) :
    Meets host (.native false (.call name args next)) m now
  | calledFault {fuel : Nat} {name : String} {args : List Value} {next : Except Fault Value → Action}
    {f : Fault} {m after now : Machine} (fault : m.callGlobal host fuel name args = .fault f after)
    (later : Meets host (.native false (next (.error f))) after now) :
    Meets host (.native false (.call name args next)) m now
  | ran {r : Routine} {next : Option Fault → Action} {m now : Machine}
    (inside : Meets host (.request (.interpret r)) m now) :
    Meets host (.native false (.interpret r next)) m now
  | ranDone {fuel : Nat} {r : Routine} {next : Option Fault → Action} {m after now : Machine}
    (done : m.interpret host fuel r = .done () after)
    (later : Meets host (.native false (next none)) after now) :
    Meets host (.native false (.interpret r next)) m now
  | ranFault {fuel : Nat} {r : Routine} {next : Option Fault → Action} {f : Fault} {m after now : Machine}
    (fault : m.interpret host fuel r = .fault f after)
    (later : Meets host (.native false (next (some f))) after now) :
    Meets host (.native false (.interpret r next)) m now

namespace Fits

variable {limit : Nat} {m : Machine} (fits : m.Fits limit)

include fits

theorem prepare : m.prepare.Fits limit := by
  have dropped : m.Reframed [] m.prepare := ⟨rfl, rfl, id⟩
  exact fits.reframed dropped (Nat.zero_le _) (List.forall_mem_nil _)

theorem push {v : Value} {after : Machine} (pushed : m.push v = .ok after) : after.Fits limit :=
  fits.beside (beside_of_push pushed)

theorem pop {v : Value} {after : Machine} (popped : m.pop = .ok (v, after)) : after.Fits limit := by
  rw [Machine.pop] at popped
  split at popped
  · cases popped
  · cases popped
    exact fits.beside (.lowered rfl rfl (m.stack.height_below _))

theorem pushOn (v : Value) : (m.pushOn v).machine.Fits limit := by
  have pushed : (m.pushOn v).Meets m.Beside (fun _ => True) m.Beside := push_meets (fun _ => trivial) v
  exact pushed.machine (fun _ => fits.beside) fun _ => fits.beside

theorem enter {first : Machine} {r : Routine} {count : Nat} (present : count < m.height)
    (entered : m.enter r count = .next first) : first.Fits limit := by
  have met : (m.enter r count).Meets (fun after => ∃ begun, m.Called after begun) (fun _ => True)
      m.Beside := enter_meets (fun _ => trivial) r present
  rw [entered] at met
  obtain ⟨begun, called⟩ := met
  exact fits.called called

theorem abandon (f : Fault) (height : Nat) : (m.abandon f height).Fits limit := by
  have lower : (m.abandon f height).height ≤ m.height := by
    have same : (m.write .err f.report).height = m.height := rfl
    rw [Machine.abandon, Machine.height]
    dsimp only
    rw [same]
    by_cases higher : height < m.height
    · rw [if_pos higher]
      exact Nat.le_trans (m.stack.height_resize height) (Nat.le_of_lt higher)
    · rw [if_neg higher]
      exact Nat.le_refl _
  have dropped : m.Reframed [] (m.abandon f height) := .lowered rfl rfl lower
  exact fits.reframed dropped (Nat.zero_le _) (List.forall_mem_nil _)

theorem callNative (perform : Native → List Value → Machine → Ending Value) (n : Native) (count : Nat)
    (performs : ∀ args, (perform n args m).machine.Fits limit) :
    (m.callNative perform n count).machine.Fits limit := by
  rw [Machine.callNative]
  split
  · exact fits
  · have left := performs (m.stack.top count)
    dsimp only
    generalize perform n (m.stack.top count) m = ending at left ⊢
    cases ending with
    | done v after =>
        have limits : after.maxFrames = limit := left.maxFrames
        have low := after.stack.height_resize (m.height - count - 1)
        have height := fits.height
        rw [maxHeight, fits.maxFrames] at height
        have cut : Fits limit { after with stack := after.stack.resize (m.height - count - 1) } := by
          refine ⟨⟨?_, left.depth, left.seated⟩, limits⟩
          rw [maxHeight]
          dsimp only
          rw [limits]
          exact Nat.le_trans low (by omega)
        exact cut.pushOn v
    | _ => exact left

theorem run (host : Host) (fuel : Nat) : (m.run host fuel).machine.Fits limit := by
  induction fuel generalizing m with
  | zero => exact fits
  | succ fuel ih =>
      have after := fits.step host
      rw [Machine.run]
      generalize m.step host = step at after ⊢
      cases step with
      | next next => exact ih after
      | _ => exact after

theorem perform {call : String → List Value → Machine → Ending Value}
    {interpret : Routine → Machine → Ending Unit} (action : Action)
    (calls : ∀ name args m, Fits limit m → (call name args m).machine.Fits limit)
    (interprets : ∀ r m, Fits limit m → (interpret r m).machine.Fits limit) :
    (action.perform call interpret m).machine.Fits limit := by
  induction action generalizing m with
  | answer | fail | passOn | crash => exact fits
  | height next ih => exact ih m.height fits
  | define name v next ih => exact ih (fits.beside ⟨rfl, rfl, id⟩)
  | push v next ih =>
      rw [Action.perform]
      split
      · rename_i pushed
        exact ih (fits.push pushed)
      · exact ih fits
  | call name args next ih =>
      have after := calls name args m fits
      rw [Action.perform]
      generalize call name args m = ending at after ⊢
      cases ending with
      | done v last => exact ih (.ok v) after
      | fault f last => exact ih (.error f) after
      | _ => exact after
  | interpret r next ih =>
      have after := interprets r m fits
      rw [Action.perform]
      generalize interpret r m = ending at after ⊢
      cases ending with
      | done v last => exact ih none after
      | fault f last => exact ih (some f) after
      | _ => exact after
  | clock next ih => exact ih _ (fits.beside ⟨rfl, rfl, id⟩)
  | random next ih => exact ih _ (fits.beside ⟨rfl, rfl, id⟩)

end Fits

structure Confines (host : Host) (limit fuel : Nat) : Prop where
  invoke : ∀ callee args m, Fits limit m → (invoke host fuel callee args m).machine.Fits limit
  interpret : ∀ r m, Fits limit m → (interpret host fuel r m).machine.Fits limit
  callGlobal : ∀ name args m, Fits limit m → (callGlobal host fuel name args m).machine.Fits limit

section

variable (host : Host) (limit : Nat)

theorem Confines.invoke_succ {fuel : Nat} (confined : Confines host limit fuel) {m : Machine}
    (fits : m.Fits limit) (callee : Value) (args : List Value) :
    (Machine.invoke host (fuel + 1) callee args m).machine.Fits limit := by
  rw [Machine.invoke]
  split
  · rename_i full failed
    exact fits.beside (beside_of_pushAll (.inr failed))
  · rename_i full pushed
    have within := fits.beside (beside_of_pushAll (.inl pushed))
    cases callee with
    | routine r =>
        have present : args.length < full.height := by
          rw [height_pushAll pushed, List.length_cons]
          omega
        simp only [callValue]
        rcases enter_cases full r args.length with ⟨first, entered⟩ | ⟨f, raised, -⟩
        · rw [entered]
          exact (within.enter present entered).run host fuel
        · rw [raised]
          exact within
    | native n =>
        simp only [callValue]
        have settled := within.callNative (fun n args m =>
          (host n args).perform (Machine.callGlobal host fuel) (Machine.interpret host fuel) m) n
          args.length fun given => within.perform (host n given) confined.callGlobal confined.interpret
        generalize full.callNative _ n args.length = step at settled ⊢
        cases step <;> exact settled
    | _ => exact within

theorem Confines.interpret_succ {fuel : Nat} (confined : Confines host limit fuel) {m : Machine}
    (fits : m.Fits limit) (r : Routine) :
    (Machine.interpret host (fuel + 1) r m).machine.Fits limit := by
  rw [Machine.interpret]
  split
  · exact fits
  · have after := confined.invoke (.routine r) [] m.prepare fits.prepare
    generalize Machine.invoke host fuel (.routine r) [] m.prepare = ending at after ⊢
    cases ending with
    | fault f last => exact after.abandon f m.height
    | _ => exact after

theorem Confines.callGlobal_succ {fuel : Nat} (confined : Confines host limit fuel) {m : Machine}
    (fits : m.Fits limit) (name : String) (args : List Value) :
    (Machine.callGlobal host (fuel + 1) name args m).machine.Fits limit := by
  rw [Machine.callGlobal]
  split
  · exact fits
  · split
    · exact fits
    · rename_i callee found
      have after := confined.invoke callee args m.prepare fits.prepare
      generalize Machine.invoke host fuel callee args m.prepare = ending at after ⊢
      cases ending with
      | done result last =>
          dsimp only
          split
          · rename_i v lower popped
            exact after.pop popped
          · exact after
      | fault f last => exact after.abandon f m.height
      | _ => exact after

theorem confines (fuel : Nat) : Confines host limit fuel := by
  induction fuel with
  | zero =>
      constructor
      · exact fun callee args m fits => fits
      · exact fun r m fits => fits
      · exact fun name args m fits => fits
  | succ fuel confined =>
      constructor
      · exact fun callee args m fits => confined.invoke_succ host limit fits callee args
      · exact fun r m fits => confined.interpret_succ host limit fits r
      · exact fun name args m fits => confined.callGlobal_succ host limit fits name args

end

variable {host : Host} {limit fuel : Nat} {m now : Machine}

theorem Fits.interpret (fits : m.Fits limit) {r : Routine} {ending : Ending Unit}
    (ended : m.interpret host fuel r = ending) : ending.machine.Fits limit := by
  rw [← ended]
  exact (confines host limit fuel).interpret r m fits

theorem Fits.callGlobal (fits : m.Fits limit) {name : String} {args : List Value} {ending : Ending Value}
    (ended : m.callGlobal host fuel name args = ending) : ending.machine.Fits limit := by
  rw [← ended]
  exact (confines host limit fuel).callGlobal name args m fits

theorem Fits.attend (fits : m.Fits limit) (q : Request) : (m.attend host fuel q).Fits limit := by
  cases q with
  | push v =>
      rw [Machine.attend]
      split
      · rename_i pushed
        exact fits.push pushed
      · exact fits
  | pop =>
      rw [Machine.attend]
      split
      · rename_i popped
        exact fits.pop popped
      · exact fits
  | define name v => exact fits.beside ⟨rfl, rfl, id⟩
  | interpret r => exact fits.interpret rfl
  | call name args => exact fits.callGlobal rfl

theorem Fits.attends (fits : m.Fits limit) (attends : Attends host m now) : now.Fits limit := by
  induction attends with
  | here => exact fits
  | next attends fuel q ih => exact ih.attend q

theorem Fits.meets {activity : Activity} (fits : m.Fits limit) (meets : Meets host activity m now) :
    now.Fits limit := by
  induction meets with
  | here => exact fits
  | attended => exact fits.attend _
  | interpret idle inside ih | named idle found inside ih => exact ih fits.prepare
  | ended => exact (confines host limit _).invoke _ _ _ fits
  | pushed first pushed => exact fits.beside (beside_of_pushAll (.inl pushed))
  | routine pushed entered inside ih =>
      have within := fits.beside (beside_of_pushAll (.inl pushed))
      have height := height_pushAll pushed
      rw [List.length_cons] at height
      exact ih (within.enter (by omega) entered)
  | native pushed arity inside ih => exact ih (fits.beside (beside_of_pushAll (.inl pushed)))
  | stepped => exact fits.step host
  | next stepped later ih =>
      have after := fits.step host
      rw [stepped] at after
      exact ih after
  | inside frames byte read callee arity inside ih => exact ih (fits.fetch frames .call)
  | height later ih | full refused later ih | refusedCall later ih | refusedRun later ih => exact ih fits
  | define later ih | clock later ih | random later ih => exact ih (fits.beside ⟨rfl, rfl, id⟩)
  | push pushed later ih => exact ih (fits.push pushed)
  | called inside ih | ran inside ih => exact ih fits
  | calledDone ended later ih | calledFault ended later ih => exact ih (fits.callGlobal ended)
  | ranDone ended later ih | ranFault ended later ih => exact ih (fits.interpret ended)

/-! Where there is no room -/

theorem pushAll_full (vs : List Value) (within : m.height ≤ m.maxHeight)
    (many : m.maxHeight < m.height + vs.length) :
    ∃ full, m.pushAll vs = .error full ∧ m.height ≤ full.height := by
  induction vs generalizing m with
  | nil =>
      rw [List.length_nil] at many
      omega
  | cons v rest ih =>
      rw [pushAll]
      by_cases room : m.HasRoom
      · have higher : (m.withStack (m.stack.push v)).height = m.height + 1 := m.stack.height_push v
        have same : (m.withStack (m.stack.push v)).maxHeight = m.maxHeight := rfl
        rw [List.length_cons] at many
        rw [HasRoom] at room
        obtain ⟨full, failed, kept⟩ := ih (m := m.withStack (m.stack.push v)) (by omega) (by omega)
        rw [push_eq room]
        exact ⟨full, failed, by omega⟩
      · rw [push, if_pos (Nat.le_of_not_lt room)]
        exact ⟨m, rfl, Nat.le_refl _⟩

theorem height_abandon (f : Fault) {height : Nat} (lower : height ≤ m.height) :
    (m.abandon f height).height = height := by
  have same : (m.write .err f.report).height = m.height := rfl
  rw [abandon, Machine.height]
  dsimp only
  rw [same]
  by_cases higher : height < m.height
  · rw [if_pos higher]
    exact Stack.height_resize_of_le lower
  · rw [if_neg higher]
    exact Nat.le_antisymm (Nat.le_of_not_lt higher) lower

/-- A run that cannot begin for want of room says so and leaves the stack as high as it was. -/
def NoRoom {α : Type} (m : Machine) (ending : Ending α) : Prop :=
  ∃ f after, ending = .fault f after ∧ f.message = "Value stack overflow" ∧ after.height = m.height ∧
    after.frames = []

variable (idle : m.isRunning = false) (within : m.height ≤ m.maxHeight)

include idle within

theorem interpret_full (full : m.height = m.maxHeight) (r : Routine) :
    m.NoRoom (m.interpret host (fuel + 2) r) := by
  obtain ⟨last, failed, kept⟩ := pushAll_full (m := m.prepare) [.routine r] within
    (show m.maxHeight < m.height + 1 by omega)
  rw [Machine.interpret, if_neg (Bool.eq_false_iff.mp idle), invoke, failed]
  exact ⟨_, _, rfl, rfl, height_abandon _ kept, rfl⟩

theorem callGlobal_full {name : String} {callee : Value} {args : List Value}
    (found : m.global? name = some callee) (many : m.maxHeight < m.height + args.length + 1) :
    m.NoRoom (m.callGlobal host (fuel + 2) name args) := by
  obtain ⟨last, failed, kept⟩ := pushAll_full (m := m.prepare) (callee :: args) within
    (show m.maxHeight < m.height + (args.length + 1) by omega)
  rw [Machine.callGlobal, if_neg (Bool.eq_false_iff.mp idle), found]
  simp only [invoke, failed]
  exact ⟨_, _, rfl, rfl, height_abandon _ kept, rfl⟩

end Machine

open Machine

theorem Machine.new_fits {limit : Nat} (positive : 1 ≤ limit) (world : World) :
    (Machine.new limit world).Fits limit := by
  have maxFrames : (Machine.new limit world).maxFrames = limit := by
    show (if (limit : Int) ≤ 0 then defaultMaxFrames else (limit : Int).toNat) = limit
    rw [if_neg (by omega), Int.toNat_natCast]
  exact ⟨⟨Nat.zero_le _, Nat.zero_le _, nofun⟩, maxFrames⟩

/-- A machine never has more calls in progress or more values than it is allowed, whatever a host asks
of it and wherever it has got on the way. What would go beyond that is reported instead: by the step
that would do it, by a push, and by a run that finds no room to begin. -/
theorem limits_hold {limit : Nat} (positive : 1 ≤ limit) (host : Host) (world : World)
    (trace : Option (Array TraceEntry)) {now : Machine}
    (attends : Attends host { Machine.new limit world with trace } now) :
    (∀ q met, Meets host (.request q) now met →
      met.frames.length ≤ limit ∧ met.height ≤ 256 * limit ∧
      (∀ v, met.height = 256 * limit →
        ∃ cause, met.push v = .error cause ∧ cause.message = "Value stack overflow") ∧
      ∀ n after, limit ≤ n → (met.limited n).step host = .next after →
        limit < after.frames.length ∨ 256 * limit < after.height →
        ∃ f last, met.step host = .fault f last ∧
          (f.message = "Stack overflow" ∨ f.message = "Value stack overflow")) ∧
    (now.isRunning = false → now.height = 256 * limit →
      ∀ fuel r, now.NoRoom (now.interpret host (fuel + 2) r)) ∧
    ∀ name callee args, now.isRunning = false → now.global? name = some callee →
      256 * limit < now.height + args.length + 1 →
      ∀ fuel, now.NoRoom (now.callGlobal host (fuel + 2) name args) := by
  have started : Fits limit { Machine.new limit world with trace } :=
    (new_fits positive world).beside ⟨rfl, rfl, id⟩
  have fits := started.attends attends
  have size : ∀ {m : Machine}, m.Fits limit → m.maxHeight = 256 * limit := by
    intro m within
    rw [maxHeight, within.maxFrames, Nat.mul_comm]
    rfl
  refine ⟨fun q met meets => ?_, fun idle full fuel r => ?_, ?_⟩
  · have within := fits.meets meets
    have height := within.height
    have depth := within.depth
    rw [size within] at height
    rw [within.maxFrames] at depth
    refine ⟨depth, height, fun v full => ?_, fun n after wider stepped beyond => ?_⟩
    · refine ⟨.stackFull, ?_, rfl⟩
      rw [push, if_pos (by rw [size within]; omega)]
    · rw [Nat.mul_comm] at beyond
      exact (within.overflows host wider stepped beyond).message
  · exact interpret_full idle fits.height (by rw [size fits]; exact full) r
  · intro name callee args idle found many fuel
    exact callGlobal_full idle fits.height found (by rw [size fits]; exact many)

/-- One call is allowed, that of the script, which cannot call its function. -/
theorem limits_hold_recursion :
    let m := Machine.new 1 ⟨0, 0⟩
    (∀ q met, Meets Host.standard (.request q) m met → met.frames.length ≤ 1 ∧ met.height ≤ 256) ∧
    ∃ r f after, compile 0 "fn f() = f(); f();" = .ok r ∧
      m.interpret Host.standard 100 r = .fault f after ∧ f.message = "Stack overflow" := by
  intro m
  constructor
  · intro q met meets
    obtain ⟨depth, height, -⟩ :=
      (limits_hold (show 1 ≤ 1 by decide) Host.standard ⟨0, 0⟩ none .here).1 q met meets
    exact ⟨depth, height⟩
  · obtain ⟨r, f, after, compiled, fault, said⟩ := exists_fault (show
      ((compile 0 "fn f() = f(); f();").toOption.any fun r =>
        (m.interpret Host.standard 100 r).faults fun f _ => f.message == "Stack overflow") = true by
      decide +kernel)
    exact ⟨r, f, after, compiled, fault, eq_of_beq said⟩

end Reckoner
