import Reckoner.Proofs.Machine.Decoding
import Reckoner.Proofs.Machine.Restoration

/-!
Traces. A fault that is raised while calls are in progress shows all of them, innermost first: the one
that runs at the instruction that failed, and every other one at the call that entered the one above it.
-/

namespace Reckoner

structure FrameInfo.Shows (entry : FrameInfo) (r : Routine) (i : Instruction) : Prop where
  routine : entry.routine = r.display
  member : i ∈ r.instructions.1
  offset : entry.offset = i.offset
  line : r.lines[i.offset]? = some entry.line

theorem Routine.Valid.line_at {r : Routine} (valid : r.Valid) {p : Nat} (inside : p < r.code.size) :
    r.lines[p]? = some (r.lineAt p) := by
  rw [← valid.sized] at inside
  rw [Routine.lineAt, if_neg (by omega), Int.toNat_natCast, Array.getElem?_eq_getElem inside]
  rfl

namespace Machine

/-! ## The instruction that runs next -/

structure Runs (host : Host) (m : Machine) (frame : Frame) (rest : List Frame) (i : Instruction)
    (op : Operation) (operand : Nat) : Prop where
  frames : m.frames = frame :: rest
  member : i ∈ frame.routine.instructions.1
  offset : (i.offset : Int) = frame.ip
  known : Operation.ofByte? i.byte = some op
  decoded : frame.routine.decode frame.ip = .ok i
  line : frame.routine.lines[i.offset]? = some (frame.routine.lineAt frame.ip)
  ran : m.step host = execute host (m.fetch frame rest op) (frame.fetch op) op operand

theorem Orderly.runs (host : Host) {m : Machine} (orderly : m.Orderly) :
    ∃ frame rest i op operand, m.Runs host frame rest i op operand := by
  obtain ⟨frame, rest, depth, within, p, ip, flows⟩ := orderly
  obtain ⟨unit, isGlobal, f, marked, carries⟩ := within.routine.carries
  obtain ⟨marks, same, -, -, reach⟩ := carries.marks
  obtain ⟨d, here⟩ := reach p depth flows
  have stands := here.stands
  rw [same] at stands
  obtain ⟨code, read⟩ := carries.fetch stands
  have byte : byteAt? frame.routine frame.ip = some d.op.byte := by
    rw [ip, byteAt?, if_neg (by omega), Int.toNat_natCast]
    exact code
  refine ⟨frame, rest, d.instruction frame.routine.constants p, d.op, d.operand, within.frames,
    carries.mem_instructions.mpr ⟨p, d, stands, rfl⟩, ip.symm, Operation.ofByte?_byte d.op, ?_, ?_, ?_⟩
  · rw [ip, Routine.decode, if_neg (by omega), Int.toNat_natCast]
    exact carries.decodeAt stands
  · rw [ip]
    exact carries.valid.line_at (Array.getElem?_eq_some_iff.mp code).1
  · exact Machine.step_eq within.frames byte (by rw [ip, Int.toNat_natCast]; exact read)

/-- How a step that goes on leaves the calls in progress, the innermost of which runs an operation. -/
inductive Shifts (frame : Frame) (rest : List Frame) (op : Operation) : List Frame → Prop where
  | moves (ip : Int) : Shifts frame rest op ({ frame with last := frame.ip, ip } :: rest)
  | enters (ip : Int) (begun : Frame) (called : op = .call) :
    Shifts frame rest op (begun :: { frame with last := frame.ip, ip } :: rest)
  | leaves : Shifts frame rest op rest

theorem Shifts.called {frame : Frame} {rest fs : List Frame} {op : Operation}
    (shifts : Shifts frame rest op fs) (more : rest.length + 1 < fs.length) : op = .call := by
  cases shifts with
  | moves => exact absurd more (Nat.lt_irrefl _)
  | enters _ _ called => exact called
  | leaves => exact absurd more (Nat.not_lt.mpr (Nat.le_succ _))

def Raises (m : Machine) (f : Fault) : Prop := ∃ cause, f = m.faultOf cause

theorem raises_faultOf (m : Machine) (cause : Cause) : m.Raises (m.faultOf cause) := ⟨cause, rfl⟩

section

variable {host : Host} {m after : Machine} {frame : Frame} {rest : List Frame} {i : Instruction}
  {op : Operation} {operand : Nat}

theorem Follows.shifts
    (follows : (m.fetch frame rest op).Follows (frame.fetch op) rest op operand after) :
    Shifts frame rest op after.frames ∧ after.maxFrames = m.maxFrames := by
  have shifted : ∀ {fs}, Shifts frame rest op fs → (m.fetch frame rest op).Reframed fs after →
      Shifts frame rest op after.frames ∧ after.maxFrames = m.maxFrames := by
    intro fs shifts reframed
    rw [reframed.frames, reframed.maxFrames, fetch_maxFrames]
    exact ⟨shifts, rfl⟩
  cases op with
  | jump | loop => exact shifted (.moves _) follows
  | jumpIfFalse =>
      obtain ⟨v, -, reframed⟩ := follows
      exact shifted (.moves _) reframed
  | call =>
      obtain ⟨entered, called⟩ := follows
      have one := called.one
      match entered with
      | [] => exact shifted (.moves _) called.reframed
      | [begun] => exact shifted (.enters _ begun rfl) called.reframed
      | _ :: _ :: _ =>
          simp only [List.length_cons] at one
          omega
  | «return» => exact shifted .leaves follows
  | _ => exact shifted (.moves _) follows

variable (runs : m.Runs host frame rest i op operand) (bounded : m.Bounded)

include runs bounded

theorem Runs.follows {own : Fault → Prop}
    (told : ∀ cause, own ((m.fetch frame rest op).faultOf cause))
    (vouches : ∀ n args, (host n args).Vouches own) :
    (m.step host).Meets ((m.fetch frame rest op).Follows (frame.fetch op) rest op operand) own
      (m.fetch frame rest op).Beside := by
  rw [runs.ran]
  exact execute_follows host (m.fetch_frames frame rest op)
    ((bounded.fetch runs.frames op).seated _ List.mem_cons_self) told vouches op operand

theorem Runs.shifts (stepped : m.step host = .next after) :
    Shifts frame rest op after.frames ∧ after.maxFrames = m.maxFrames := by
  have follows := runs.follows bounded (fun _ => trivial) fun n args => (host n args).vouches_any
  rw [stepped] at follows
  exact follows.shifts

theorem Runs.fault (passes : host.PassesOwn) {f : Fault} (stepped : m.step host = .fault f after) :
    (m.fetch frame rest op).Raises f := by
  have follows := runs.follows bounded (fun cause => raises_faultOf _ cause) (passes _)
  rw [stepped] at follows
  exact follows.1

end

/-! ## The calls around it -/

/-- Steps lead from one machine to another. All the way, more calls than the given ones are in progress. -/
inductive Stays (host : Host) (below : List Frame) (first : Machine) : Machine → Prop where
  | here {callee : Frame} (above : first.frames = callee :: below) : Stays host below first first
  | next {m after : Machine} {inner : List Frame} {callee : Frame} (stays : Stays host below first m)
    (stepped : m.step host = .next after) (above : after.frames = inner ++ callee :: below) :
    Stays host below first after

/-- The instruction a call was last at has entered the call above it, which has not ended since. -/
inductive Entered (host : Host) (first state : Machine) (callee caller : Frame) (below : List Frame) :
    Prop where
  | intro {before entered : Machine} {last : Int} {begun : Frame} (reaches : Reaches host first before)
    (calls : before.frames = { caller with ip := caller.last, last } :: below)
    (stepped : before.step host = .next entered)
    (calling : entered.frames = begun :: caller :: below)
    (same : begun.routine = callee.routine ∧ begun.base = callee.base)
    (stays : Stays host (caller :: below) entered state) : Entered host first state callee caller below

/-- Every call that waits has entered the one above it, and the outermost call is one of a routine. -/
structure Descends (host : Host) (first : Machine) (r : Routine) (state : Machine) : Prop where
  entered : ∀ inner callee caller below, state.frames = inner ++ callee :: caller :: below →
    Entered host first state callee caller below
  root : state.frames.getLast?.map Frame.routine = some r

section

variable {host : Host} {first state after : Machine} {callee caller frame : Frame}
  {below rest inner : List Frame} {op : Operation} {r : Routine}

theorem Entered.onward (entered : Entered host first state callee caller below)
    (stepped : state.step host = .next after) {moved : Frame}
    (same : callee.routine = moved.routine ∧ callee.base = moved.base)
    (above : after.frames = inner ++ moved :: caller :: below) :
    Entered host first after moved caller below := by
  obtain ⟨reaches, calls, entering, calling, begun, stays⟩ := entered
  exact ⟨reaches, calls, entering, calling, ⟨begun.1.trans same.1, begun.2.trans same.2⟩,
    stays.next stepped above⟩

theorem split_moved {last ip : Int}
    (split : { frame with last, ip } :: rest = inner ++ callee :: caller :: below) :
    ∃ outer old, frame :: rest = outer ++ old :: caller :: below ∧ old.routine = callee.routine ∧
      old.base = callee.base := by
  cases inner with
  | nil =>
      obtain ⟨rfl, rfl⟩ := List.cons.inj split
      exact ⟨[], frame, rfl, rfl, rfl⟩
  | cons _ inner =>
      obtain ⟨-, rfl⟩ := List.cons.inj split
      exact ⟨frame :: inner, callee, rfl, rfl, rfl⟩

namespace Descends

variable (descends : Descends host first r state) (calls : state.frames = frame :: rest)

include descends calls

theorem entered_moved (stepped : state.step host = .next after) {last ip : Int} {more : List Frame}
    (moved : after.frames = more ++ { frame with last, ip } :: rest)
    (split : { frame with last, ip } :: rest = inner ++ callee :: caller :: below) :
    Entered host first after callee caller below := by
  obtain ⟨outer, old, equal, same⟩ := split_moved split
  have above : after.frames = (more ++ inner) ++ callee :: caller :: below := by
    rw [moved, split, List.append_assoc]
  exact (descends.entered outer old caller below (calls.trans equal)).onward stepped same above

theorem root_moved {last ip : Int} :
    (({ frame with last, ip } : Frame) :: rest).getLast?.map Frame.routine = some r := by
  have root := descends.root
  rw [calls] at root
  cases rest with
  | nil => exact root
  | cons other rest =>
      rw [List.getLast?_cons_cons] at root ⊢
      exact root

theorem step (reaches : Reaches host first state) (stepped : state.step host = .next after)
    (shifts : Shifts frame rest op after.frames) (some : after.frames ≠ []) :
    Descends host first r after := by
  generalize moved : after.frames = fs at shifts some
  cases shifts with
  | moves ip =>
      have whole : after.frames = [] ++ { frame with last := frame.ip, ip } :: rest := moved
      refine ⟨fun inner callee caller below split => ?_, ?_⟩
      · exact descends.entered_moved calls stepped whole (moved.symm.trans split)
      · rw [moved]
        exact descends.root_moved calls
  | enters ip begun called =>
      have whole : after.frames = [begun] ++ { frame with last := frame.ip, ip } :: rest := moved
      refine ⟨fun inner callee caller below split => ?_, ?_⟩
      · rw [moved] at split
        cases inner with
        | nil =>
            obtain ⟨rfl, others⟩ := List.cons.inj split
            obtain ⟨rfl, rfl⟩ := List.cons.inj others
            exact ⟨reaches, calls, stepped, moved, ⟨rfl, rfl⟩, .here moved⟩
        | cons other inner => exact descends.entered_moved calls stepped whole (List.cons.inj split).2
      · rw [moved, List.getLast?_cons_cons]
        exact descends.root_moved calls
  | leaves =>
      refine ⟨fun inner callee caller below split => ?_, ?_⟩
      · have before : state.frames = (frame :: inner) ++ callee :: caller :: below := by
          rw [calls, ← moved, split]
          rfl
        exact (descends.entered (frame :: inner) callee caller below before).onward stepped ⟨rfl, rfl⟩
          split
      · have root := descends.root
        obtain ⟨caller, below, rfl⟩ := List.exists_cons_of_ne_nil some
        rw [calls, List.getLast?_cons_cons] at root
        rw [moved]
        exact root

end Descends

theorem Starts.frames {m : Machine} {args : List Value} (starts : m.Starts r args first) :
    (∃ base, first.frames = [⟨r, 0, base, 0⟩]) ∧ first.maxFrames = m.maxFrames := by
  obtain ⟨full, pushed, entered⟩ := starts
  obtain ⟨s, rfl, -⟩ := pushAll_eq pushed
  rw [enter] at entered
  split at entered
  · cases entered
  · split at entered
    · cases entered
    · rw [← Step.next.inj entered]
      exact ⟨⟨_, rfl⟩, rfl⟩

theorem Starts.descends {m : Machine} {args : List Value} (starts : m.Starts r args first) :
    Descends host first r first := by
  obtain ⟨⟨base, frames⟩, -⟩ := starts.frames
  refine ⟨fun inner callee caller below split => ?_, by rw [frames]; rfl⟩
  have length := congrArg List.length (frames.symm.trans split)
  simp only [List.length_append, List.length_cons, List.length_nil] at length
  omega

variable (serves : host.Serves) (orderly : first.Orderly) (bounded : first.Bounded)

include serves orderly bounded

theorem Reaches.descends (root : Descends host first r first) (reaches : Reaches host first state) :
    Descends host first r state ∧ state.maxFrames = first.maxFrames := by
  induction reaches with
  | here => exact ⟨root, rfl⟩
  | @next m after reaches stepped ih =>
      have reached : Reaches host first after := reaches.next stepped
      obtain ⟨frame, rest, i, op, operand, runs⟩ := (reaches.orderly serves orderly).runs host
      obtain ⟨shifts, limit⟩ := runs.shifts (reaches.bounded bounded) stepped
      obtain ⟨inner, others, depth, within, -⟩ := reached.orderly serves orderly
      have some : after.frames ≠ [] := by
        rw [within.frames]
        exact List.cons_ne_nil _ _
      exact ⟨ih.1.step runs.frames reaches stepped shifts some, limit.trans ih.2⟩

theorem Entered.call (entered : Entered host first state callee caller below) :
    ∃ i, caller.info.Shows caller.routine i ∧ (i.offset : Int) = caller.last ∧
      Operation.ofByte? i.byte = some .call := by
  obtain ⟨reaches, calls, stepped, calling, -, -⟩ := entered
  obtain ⟨frame, rest, i, op, operand, runs⟩ := (reaches.orderly serves orderly).runs host
  obtain ⟨shifts, -⟩ := runs.shifts (reaches.bounded bounded) stepped
  obtain ⟨rfl, rfl⟩ := List.cons.inj (calls.symm.trans runs.frames)
  refine ⟨i, ⟨rfl, runs.member, runs.offset.symm, runs.line⟩, runs.offset, ?_⟩
  rw [runs.known, shifts.called (by rw [calling]; exact Nat.lt_succ_self _)]

end

end Machine

/-! ## Traces -/

/-- A fault shows each call in progress on a machine that raises it, in a run that a machine began with a
call of a routine. -/
structure Fault.Describes (f : Fault) (host : Host) (first : Machine) (r : Routine) (state : Machine) :
    Prop where
  count : f.calls.length = state.frames.length
  active : 1 ≤ f.calls.length
  limit : f.calls.length ≤ first.maxFrames
  innermost : ∃ frame rest i, state.frames = frame :: rest ∧ f.calls.head? = some f.frame ∧
    f.frame.Shows frame.routine i ∧ (i.offset : Int) = frame.ip ∧ f.instruction = i.text
  waiting : ∀ inner callee caller below, state.frames = inner ++ callee :: caller :: below →
    ∃ entry i, f.calls[inner.length + 1]? = some entry ∧ entry.Shows caller.routine i ∧
      (i.offset : Int) = caller.last ∧ Operation.ofByte? i.byte = some .call ∧
      Machine.Entered host first state callee caller below
  outermost : ∃ entry i, f.calls.getLast? = some entry ∧ entry.Shows r i

/-- The fault ends a run, and describes the calls in progress there. -/
def Fault.Traces (f : Fault) (host : Host) (first : Machine) (r : Routine) : Prop :=
  ∃ state after, Machine.Reaches host first state ∧ state.step host = .fault f after ∧
    f.Describes host first r state

namespace Machine

section

variable {host : Host} {m first state after : Machine} {r : Routine} {f : Fault}

theorem run_fault {fuel : Nat} (faulted : m.run host fuel = .fault f after) (reaches : Reaches host first m) :
    ∃ state, Reaches host first state ∧ state.step host = .fault f after := by
  induction fuel generalizing m with
  | zero => cases faulted
  | succ fuel ih =>
      rw [run] at faulted
      split at faulted
      · rename_i next stepped
        exact ih faulted (reaches.next stepped)
      · cases faulted
      · rename_i g last stepped
        cases faulted
        exact ⟨m, reaches, stepped⟩
      · cases faulted
      · cases faulted

section

variable {frame callee caller : Frame} {rest inner below : List Frame}

theorem getElem?_callers (head : FrameInfo) (split : frame :: rest = inner ++ callee :: caller :: below) :
    (head :: rest.map Frame.info)[inner.length + 1]? = some caller.info := by
  have at_caller : (frame :: rest)[inner.length + 1]? = some caller := by
    rw [split, List.getElem?_append_right (Nat.le_add_right _ 1), Nat.add_sub_cancel_left]
    rfl
  rw [List.getElem?_cons_succ] at at_caller
  rw [List.getElem?_cons_succ, List.getElem?_map, at_caller]
  rfl

theorem getLast?_callers (head : FrameInfo) (split : frame :: rest = inner ++ [callee, caller]) :
    (head :: rest.map Frame.info).getLast? = some caller.info := by
  have length := congrArg List.length split
  simp only [List.length_cons, List.length_append, List.length_nil] at length
  have last : (head :: rest.map Frame.info).length - 1 = inner.length + 1 := by
    rw [List.length_cons, List.length_map]
    omega
  rw [List.getLast?_eq_getElem?, last, getElem?_callers head split]

theorem eq_nil_or_outermost (frame : Frame) (rest : List Frame) :
    rest = [] ∨ ∃ inner callee last, frame :: rest = inner ++ [callee, last] := by
  rcases List.eq_nil_or_concat rest with rfl | ⟨before, last, rfl⟩
  · exact .inl rfl
  · obtain ⟨inner, callee, equal⟩ : ∃ inner callee, frame :: before = inner ++ [callee] :=
      ⟨_, _, (List.dropLast_concat_getLast (List.cons_ne_nil frame before)).symm⟩
    refine .inr ⟨inner, callee, last, ?_⟩
    rw [List.concat_eq_append, ← List.cons_append, equal, List.append_assoc]
    rfl

end

variable (serves : host.Serves) (passes : host.PassesOwn)

include serves passes

theorem Reaches.describes (orderly : first.Orderly) (bounded : first.Bounded)
    (root : Descends host first r first) (reaches : Reaches host first state)
    (stepped : state.step host = .fault f after) : f.Describes host first r state := by
  have limits := reaches.bounded bounded
  obtain ⟨descends, same⟩ := reaches.descends serves orderly bounded root
  obtain ⟨frame, rest, i, op, operand, runs⟩ := (reaches.orderly serves orderly).runs host
  obtain ⟨cause, rfl⟩ := runs.fault limits passes stepped
  have calls : ((state.fetch frame rest op).faultOf cause).calls =
      (frame.fetch op).info :: rest.map Frame.info := rfl
  have count : ((state.fetch frame rest op).faultOf cause).calls.length = state.frames.length := by
    rw [calls, runs.frames, List.length_cons, List.length_cons, List.length_map]
  have innermost : (frame.fetch op).info.Shows frame.routine i :=
    ⟨rfl, runs.member, runs.offset.symm, runs.line⟩
  refine ⟨count, ?_, ?_, ?_, ?_, ?_⟩
  · rw [calls]
    exact Nat.succ_pos _
  · rw [count, ← same]
    exact limits.depth
  · exact ⟨frame, rest, i, runs.frames, rfl, innermost, runs.offset,
      instruction_faultOf rfl runs.decoded cause⟩
  · intro inner callee caller below split
    have entered := descends.entered inner callee caller below split
    obtain ⟨j, shows, offset, call⟩ := entered.call serves orderly bounded
    have listed := getElem?_callers (frame.fetch op).info (runs.frames.symm.trans split)
    exact ⟨caller.info, j, listed, shows, offset, call, entered⟩
  · have root := descends.root
    rcases eq_nil_or_outermost frame rest with rfl | ⟨inner, callee, last, split⟩
    · rw [runs.frames] at root
      obtain rfl : frame.routine = r := Option.some.inj root
      exact ⟨_, i, rfl, innermost⟩
    · have whole := runs.frames.trans split
      obtain ⟨j, shows, -⟩ :=
        (descends.entered inner callee last [] whole).call serves orderly bounded
      rw [whole, List.append_cons, List.getLast?_concat] at root
      obtain rfl : last.routine = r := Option.some.inj root
      exact ⟨last.info, j, getLast?_callers _ split, shows⟩

theorem Starts.traces (rests : m.Rests) (compiled : r.Compiled) {args : List Value}
    (propers : ∀ v ∈ args, v.Proper) (starts : m.Starts r args first) {fuel : Nat}
    (faulted : first.run host fuel = .fault f after) : f.Traces host first r := by
  obtain ⟨state, reaches, stepped⟩ := run_fault faulted .here
  have orderly := rests.orderly compiled propers starts
  exact ⟨state, after, reaches, stepped,
    reaches.describes serves passes orderly starts.bounded starts.descends stepped⟩

end

theorem Raises.calls {m : Machine} {f : Fault} (raises : m.Raises f) (idle : m.frames = []) :
    f.calls = [] := by
  obtain ⟨cause, rfl⟩ := raises
  rw [faultOf, idle]
  rfl

theorem enter_raises {m after : Machine} {r : Routine} {count : Nat} {f : Fault}
    (raised : m.enter r count = .fault f after) : m.Raises f := by
  rw [enter] at raised
  split at raised
  · cases raised
    exact m.raises_faultOf _
  · split at raised
    · cases raised
      exact m.raises_faultOf _
    · cases raised

theorem invoke_fault {host : Host} {m after : Machine} {r : Routine} {args : List Value} {fuel : Nat}
    {f : Fault} (faulted : invoke host fuel (.routine r) args m.prepare = .fault f after) :
    (f.calls = [] ∧ ∀ first, ¬m.Starts r args first) ∨
      ∃ first fuel, m.Starts r args first ∧ first.run host fuel = .fault f after := by
  cases fuel with
  | zero =>
      rw [invoke] at faulted
      cases faulted
  | succ fuel =>
      rw [invoke] at faulted
      split at faulted
      · rename_i full failed
        cases faulted
        refine .inl ⟨(raises_faultOf _ _).calls (beside_of_pushAll (.inr failed)).frames, ?_⟩
        rintro first ⟨other, pushed, -⟩
        rw [failed] at pushed
        cases pushed
      · rename_i full pushed
        have idle : full.frames = [] := by
          obtain ⟨s, rfl, -⟩ := pushAll_eq pushed
          rfl
        simp only [callValue] at faulted
        rcases enter_cases full r args.length with ⟨first, entered⟩ | ⟨g, raised, -⟩
        · rw [entered] at faulted
          exact .inr ⟨first, fuel, ⟨full, pushed, entered⟩, faulted⟩
        · rw [raised] at faulted
          cases faulted
          refine .inl ⟨(enter_raises raised).calls idle, ?_⟩
          rintro first ⟨other, again, entered⟩
          obtain rfl := Except.ok.inj (pushed.symm.trans again)
          rw [raised] at entered
          cases entered

end Machine

/-- A fault that a call of a routine from outside ends with was raised before the routine ran, and then
shows no calls, or it traces those of the run. -/
def Fault.EndsCall (f : Fault) (host : Host) (m : Machine) (r : Routine) (args : List Value) : Prop :=
  (f.calls = [] ∧ ∀ first, ¬m.Starts r args first) ∨
    ∃ first, m.Starts r args first ∧ first.maxFrames = m.maxFrames ∧ f.Traces host first r

theorem Machine.Rests.endsCall {host : Host} (serves : host.Serves) (passes : host.PassesOwn)
    {m after : Machine} (rests : m.Rests) {r : Routine} (compiled : r.Compiled) {args : List Value}
    (propers : ∀ v ∈ args, v.Proper) {fuel : Nat} {f : Fault}
    (faulted : invoke host fuel (.routine r) args m.prepare = .fault f after) :
    f.EndsCall host m r args := by
  rcases invoke_fault faulted with early | ⟨first, fuel, starts, ended⟩
  · exact .inl early
  · exact .inr ⟨first, starts, starts.frames.2,
      starts.traces serves passes rests compiled propers ended⟩

/-- A fault of a run describes the chain of calls it was raised in. Its entries are the calls in progress,
innermost first, at least one and no more than the limit; the first is its frame, at the instruction that
failed; every other one is at the call instruction that has entered the call above it; the last is one of
the routine that the run began with; and each has the line that is recorded for its instruction. -/
theorem faults_trace_calls {host : Host} (serves : host.Serves) (passes : host.PassesOwn)
    {m : Machine} (rests : m.Rests) :
    (∀ r args first, r.Compiled → (∀ v ∈ args, v.Proper) → m.Starts r args first →
      first.maxFrames = m.maxFrames ∧
      ∀ fuel f after, first.run host fuel = .fault f after → f.Traces host first r) ∧
    (∀ unit source r,
      (compileBytes unit source = .ok r ∨ compileExpressionBytes unit source = .ok r) →
      ∀ fuel f after, m.interpret host fuel r = .fault f after → f.EndsCall host m r []) ∧
    ∀ name r args, m.global? name = some (.routine r) → (∀ v ∈ args, v.Proper) →
      ∀ fuel f after, m.callGlobal host fuel name args = .fault f after → f.EndsCall host m r args := by
  have idle : ¬m.isRunning = true := by
    rw [rests.idle]
    exact Bool.false_ne_true
  refine ⟨?_, ?_, ?_⟩
  · intro r args first compiled propers starts
    exact ⟨starts.frames.2, fun fuel f after ended =>
      starts.traces serves passes rests compiled propers ended⟩
  · intro unit source r accepted fuel f after faulted
    cases fuel with
    | zero =>
        rw [Machine.interpret] at faulted
        cases faulted
    | succ fuel =>
        rw [Machine.interpret, if_neg idle] at faulted
        split at faulted
        all_goals cases faulted
        rename_i last ended
        have none : ∀ v ∈ ([] : List Value), v.Proper := List.forall_mem_nil _
        exact rests.endsCall serves passes ⟨unit, source, r, accepted, .self⟩ none ended
  · intro name r args found propers fuel f after faulted
    cases fuel with
    | zero =>
        rw [Machine.callGlobal] at faulted
        cases faulted
    | succ fuel =>
        rw [Machine.callGlobal, if_neg idle, found] at faulted
        dsimp only at faulted
        split at faulted
        · split at faulted <;> cases faulted
        all_goals cases faulted
        rename_i last ended
        exact rests.endsCall serves passes (rests.globals name _ found) propers ended

/-- A division by zero in a function that another function calls. -/
theorem faults_trace_calls_nested :
    let m := Machine.new 0 ⟨0, 0⟩
    ∃ r f after, compile 0 "fn inner(x) = x / 0;\nfn outer() = inner(1);\nouter();\n" = .ok r ∧
      m.interpret Host.standard 100 r = .fault f after ∧
      f.calls = [⟨"<fn inner '1>", 1, 4⟩, ⟨"<fn outer '0>", 2, 4⟩, ⟨"<script>", 3, 10⟩] ∧
      f.EndsCall Host.standard m r [] := by
  intro m
  obtain ⟨r, f, after, compiled, fault, shown⟩ := exists_fault (show
    ((compile 0 "fn inner(x) = x / 0;\nfn outer() = inner(1);\nouter();\n").toOption.any fun r =>
      (m.interpret Host.standard 100 r).faults fun f _ =>
        f.calls == [⟨"<fn inner '1>", 1, 4⟩, ⟨"<fn outer '0>", 2, 4⟩, ⟨"<script>", 3, 10⟩]) = true by
    decide +kernel)
  exact ⟨r, f, after, compiled, fault, eq_of_beq shown,
    (faults_trace_calls Host.standard_respects.serves Host.standard_passesOwn (Machine.new_rests 0 ⟨0, 0⟩)).2.1
      0 _ r (.inl compiled) 100 f after fault⟩

end Reckoner
