import Reckoner.Proofs.Machine.Safety

/-!
Bounds that no code can break, compiled or not. The stack never outgrows its limit, there are never
more calls in progress than allowed, and every one of them begins below the limit of the stack.
-/

namespace Reckoner

namespace Stack

theorem height_push (s : Stack) (v : Value) : (s.push v).height = s.height + 1 := Array.size_push _

theorem height_below (s : Stack) (v : Value) : (s.below v).height ≤ s.height := by
  rw [height, height, below, Array.size_pop]
  exact Nat.sub_le ..

theorem height_set (s : Stack) (slot : Nat) (v : Value) : (s.set slot v).height = s.height :=
  Array.size_setIfInBounds

theorem height_resize (s : Stack) (n : Nat) : (s.resize n).height ≤ n := by
  rw [resize]
  split
  · rw [height, Array.size_shrink]
    exact Nat.min_le_left ..
  · have taken := List.length_take_le (n - s.live.size) s.above
    simp only [height, Array.size_append, List.size_toArray]
    omega

theorem height_resize_of_le {s : Stack} {n : Nat} (lower : n ≤ s.height) : (s.resize n).height = n := by
  rw [resize, if_pos (show n ≤ s.live.size from lower), height, Array.size_shrink]
  exact Nat.min_eq_left lower

end Stack

theorem Operation.byte_of_known {b : UInt8} {op : Operation} (known : ofByte? b = some op) :
    b = op.byte := by
  revert known
  unfold ofByte?
  split <;> first | exact fun known => by rw [← Option.some.inj known]; rfl | exact nofun

def Step.machine : Step → Machine
  | .next m | .finished m | .fault _ m | .crash _ m | .exhausted m => m

/-- A step goes on in one way, or fails in another and leaves a machine behind. It ends the run only if
no call is in progress. -/
def Step.Meets (going : Machine → Prop) (failed : Fault → Prop) (left : Machine → Prop) : Step → Prop
  | .next m => going m
  | .finished m => going m ∧ m.frames = []
  | .fault f m => failed f ∧ left m
  | .crash _ m => left m
  | .exhausted _ => False

namespace Step.Meets

variable {going going' left left' : Machine → Prop} {failed : Fault → Prop} {step : Step}
  (meets : step.Meets going failed left)

include meets

theorem mono (weaker : ∀ m, going m → going' m) (wider : ∀ m, left m → left' m) :
    step.Meets going' failed left' := by
  cases step with
  | next m => exact weaker m meets
  | finished m => exact meets.imp_left (weaker m)
  | fault f m => exact meets.imp_right (wider m)
  | crash reason m => exact wider m meets
  | exhausted m => exact meets

theorem machine {p : Machine → Prop} (goes : ∀ m, going m → p m) (leaves : ∀ m, left m → p m) :
    p step.machine := by
  cases step with
  | next m => exact goes m meets
  | finished m => exact goes m meets.1
  | fault f m => exact leaves m meets.2
  | crash reason m => exact leaves m meets
  | exhausted m => exact meets.elim

end Step.Meets

def Action.Vouches (own : Fault → Prop) : Action → Prop
  | .answer _ | .fail _ | .crash _ => True
  | .passOn f => own f
  | .height next => ∀ n, (next n).Vouches own
  | .define _ _ next | .push _ next => next.Vouches own
  | .call _ _ next => (∀ v, (next (.ok v)).Vouches own) ∧ ∀ f, own f → (next (.error f)).Vouches own
  | .interpret _ next => (next none).Vouches own ∧ ∀ f, own f → (next (some f)).Vouches own
  | .clock next | .random next => ∀ d, (next d).Vouches own

theorem Action.vouches_any (action : Action) : action.Vouches fun _ => True := by
  induction action with
  | answer | fail | passOn | crash => trivial
  | height next ih => exact ih
  | define name v next ih | push v next ih => exact ih
  | call name args next ih => exact ⟨fun v => ih _, fun f _ => ih _⟩
  | interpret r next ih => exact ⟨ih _, fun f _ => ih _⟩
  | clock next ih | random next ih => exact ih

namespace Machine

structure Reframed (before : Machine) (frames : List Frame) (after : Machine) : Prop where
  frames : after.frames = frames
  maxFrames : after.maxFrames = before.maxFrames
  height : before.height ≤ before.maxHeight → after.height ≤ after.maxHeight

abbrev Beside (before after : Machine) : Prop := before.Reframed before.frames after

namespace Reframed

variable {a b c : Machine} {fs gs : List Frame}

theorem refl (m : Machine) : m.Beside m := ⟨rfl, rfl, id⟩

theorem and_beside (first : a.Beside b) (second : b.Beside c) : a.Beside c :=
  ⟨second.frames.trans first.frames, second.maxFrames.trans first.maxFrames,
    second.height ∘ first.height⟩

theorem lowered (frames : b.frames = fs) (maxFrames : b.maxFrames = a.maxFrames)
    (lower : b.height ≤ a.height) : a.Reframed fs b :=
  ⟨frames, maxFrames, fun bound => by
    rw [maxHeight, maxFrames]
    exact Nat.le_trans lower bound⟩

theorem faultOf (beside : a.Beside b) (cause : Cause) : b.faultOf cause = a.faultOf cause := by
  rw [Machine.faultOf, Machine.faultOf, beside.frames]

end Reframed

end Machine

theorem Step.Meets.beside {a b : Machine} {failed : Fault → Prop} {step : Step}
    (meets : step.Meets b.Beside failed b.Beside) (beside : a.Beside b) :
    step.Meets a.Beside failed a.Beside :=
  meets.mono (fun _ => beside.and_beside) fun _ => beside.and_beside

namespace Machine

theorem HasRoom.beside {m : Machine} (room : m.HasRoom) (v : Value) :
    m.Beside (m.withStack (m.stack.push v)) := by
  refine ⟨rfl, rfl, fun _ => ?_⟩
  rw [height, withStack, Stack.height_push]
  exact room

theorem beside_of_push {m after : Machine} {v : Value} (pushed : m.push v = .ok after) :
    m.Beside after := by
  by_cases room : m.HasRoom
  · rw [push_eq room] at pushed
    rw [← Except.ok.inj pushed]
    exact room.beside v
  · rw [push, if_pos (Nat.le_of_not_lt room)] at pushed
    cases pushed

theorem beside_of_pushAll {m full : Machine} {vs : List Value}
    (pushed : m.pushAll vs = .ok full ∨ m.pushAll vs = .error full) : m.Beside full := by
  induction vs generalizing m with
  | nil =>
      rcases pushed with all | some
      · rw [← Except.ok.inj all]
        exact .refl m
      · cases some
  | cons v rest ih =>
      rw [pushAll] at pushed
      split at pushed
      · rename_i next one
        exact (beside_of_push one).and_beside (ih pushed)
      · rcases pushed with all | some
        · cases all
        · rw [← Except.error.inj some]
          exact .refl m

section

variable {m : Machine} {failed : Fault → Prop} (told : ∀ cause, failed (m.faultOf cause))

include told

theorem push_meets (v : Value) : (m.pushOn v).Meets m.Beside failed m.Beside := by
  by_cases room : m.HasRoom
  · rw [pushOn_eq room]
    exact room.beside v
  · rw [pushOn_full room]
    exact ⟨told _, .refl m⟩

theorem popThen_meets {going : Machine → Prop} {next : Value → Machine → Step}
    (goes : ∀ v after, m.Beside after → (next v after).Meets going failed m.Beside) :
    (m.popThen next).Meets going failed m.Beside := by
  rw [popThen, pop]
  cases m.stack.top? with
  | none => exact ⟨told _, .refl m⟩
  | some v => exact goes v _ (.lowered rfl rfl (m.stack.height_below v))

theorem peekThen_meets {going : Machine → Prop} {distance : Nat} {next : Value → Step}
    (goes : ∀ v, m.peek distance = .ok v → (next v).Meets going failed m.Beside) :
    (m.peekThen distance next).Meets going failed m.Beside := by
  rw [peekThen]
  cases peeked : m.peek distance with
  | error cause => exact ⟨told _, .refl m⟩
  | ok v => exact goes v peeked

theorem twoNumbers_meets {going : Machine → Prop} {next : Decimal → Decimal → Step}
    (goes : ∀ x y, (next x y).Meets going failed m.Beside) :
    (m.twoNumbers next).Meets going failed m.Beside := by
  refine peekThen_meets told fun b _ => peekThen_meets told fun a _ => ?_
  split
  · exact goes _ _
  · exact ⟨told _, .refl m⟩

theorem cutOn_meets {n : Nat} (lower : n ≤ m.height) (v : Value) {now : Machine}
    (beside : m.Beside now) :
    (pushOn { now with stack := now.stack.resize n } v).Meets m.Beside failed m.Beside := by
  have cut : m.Beside { now with stack := now.stack.resize n } :=
    .lowered beside.frames beside.maxFrames (Nat.le_trans (now.stack.height_resize n) lower)
  refine (push_meets (fun cause => ?_) v).beside cut
  rw [cut.faultOf]
  exact told cause

theorem arithmetic_meets (f : Decimal → Decimal → Except ArithmeticError Decimal) :
    (m.arithmetic f).Meets m.Beside failed m.Beside := by
  refine twoNumbers_meets told fun x y => ?_
  split
  · exact cutOn_meets told (Nat.sub_le ..) _ (.refl m)
  · exact ⟨told _, .refl m⟩

theorem dropOn_meets (n : Nat) : (m.dropOn n).Meets m.Beside failed m.Beside := by
  rw [dropOn]
  split
  · exact .lowered rfl rfl (Nat.le_trans (m.stack.height_resize _) (Nat.sub_le ..))
  · exact ⟨told _, .refl m⟩

end

theorem execute_meets {host : Host} {m : Machine} {failed : Fault → Prop}
    (told : ∀ cause, failed (m.faultOf cause)) (frame : Frame) {op : Operation} (operand : Nat)
    (plain : op ≠ .jump ∧ op ≠ .jumpIfFalse ∧ op ≠ .loop ∧ op ≠ .call ∧ op ≠ .return) :
    (execute host m frame op operand).Meets m.Beside failed m.Beside := by
  have defined : ∀ {after : Machine} (name : String) (v : Value), m.Beside after →
      m.Beside (after.define name v) := fun _ _ beside => ⟨beside.frames, beside.maxFrames, beside.height⟩
  have tells : ∀ {after : Machine}, m.Beside after → ∀ cause, failed (after.faultOf cause) := by
    intro after beside cause
    rw [beside.faultOf]
    exact told cause
  cases op with
  | true | false => exact push_meets told _
  | constant =>
      rw [execute]
      split
      · exact push_meets told _
      · exact .refl m
  | pop => exact popThen_meets told fun v after beside => beside
  | popN => exact dropOn_meets told _
  | loadGlobal =>
      rw [execute]
      split
      · exact .refl m
      · split
        · exact push_meets told _
        · exact ⟨told _, .refl m⟩
  | assignGlobal =>
      rw [execute]
      split
      · exact .refl m
      · split
        · exact peekThen_meets told fun v _ => defined _ v (.refl m)
        · exact ⟨told _, .refl m⟩
  | defineGlobal =>
      rw [execute]
      split
      · exact .refl m
      · exact popThen_meets told fun v after beside => defined _ v beside
  | loadLocal =>
      rw [execute]
      split
      · exact push_meets told _
      · exact .refl m
  | assignLocal =>
      refine peekThen_meets told fun v _ => ?_
      split
      · exact .lowered rfl rfl (Nat.le_of_eq (m.stack.height_set ..))
      · exact .refl m
  | equal =>
      refine popThen_meets told fun b one first => ?_
      refine (popThen_meets (tells first) fun a two second => ?_).beside first
      exact (push_meets (tells (first.and_beside second)) _).beside second
  | greater | less => exact twoNumbers_meets told fun x y => cutOn_meets told (Nat.sub_le ..) _ (.refl m)
  | add | subtract | multiply | divide | exponent | modulo => exact arithmetic_meets told _
  | negate =>
      refine peekThen_meets told fun v _ => ?_
      split
      · exact .lowered rfl rfl (Nat.le_of_eq (m.stack.height_set ..))
      · exact ⟨told _, .refl m⟩
  | not => exact popThen_meets told fun v one first => (push_meets (tells first) _).beside first
  | print =>
      exact popThen_meets told fun v after beside => ⟨beside.frames, beside.maxFrames, beside.height⟩
  | jump => exact absurd rfl plain.1
  | jumpIfFalse => exact absurd rfl plain.2.1
  | loop => exact absurd rfl plain.2.2.1
  | call => exact absurd rfl plain.2.2.2.1
  | «return» => exact absurd rfl plain.2.2.2.2

end Machine

def Ending.Meets {α : Type} (left : Machine → Prop) (failed : Fault → Prop) : Ending α → Prop
  | .done _ m | .crash _ m => left m
  | .fault f m => failed f ∧ left m
  | .exhausted _ => False

theorem Ending.Meets.beside {α : Type} {a b : Machine} {failed : Fault → Prop} {ending : Ending α}
    (meets : ending.Meets b.Beside failed) (beside : a.Beside b) : ending.Meets a.Beside failed := by
  cases ending with
  | done v m | crash reason m => exact beside.and_beside meets
  | fault f m => exact meets.imp_right beside.and_beside
  | exhausted m => exact meets

namespace Machine

theorem peek_present {m : Machine} {distance : Nat} {v : Value} (peeked : m.peek distance = .ok v) :
    distance < m.height := by
  by_contra absent
  have none : m.stack.peek? distance = none := if_neg absent
  rw [peek, none] at peeked
  cases peeked

theorem perform_meets {own : Fault → Prop} (action : Action) {m : Machine}
    (told : ∀ cause, own (m.faultOf cause)) (vouches : action.Vouches own) :
    (action.perform (fun _ _ m => .fault (m.faultOf .alreadyRunning) m)
      (fun _ m => .fault (m.faultOf .alreadyRunning) m) m).Meets m.Beside own := by
  induction action generalizing m with
  | answer v | crash reason => exact .refl m
  | fail e => exact ⟨told _, .refl m⟩
  | passOn f => exact ⟨vouches, .refl m⟩
  | height next ih => exact ih m.height told (vouches _)
  | define name v next ih =>
      have defined : m.Beside (m.define name v) := ⟨rfl, rfl, id⟩
      exact (ih (m := m.define name v) told vouches).beside defined
  | push v next ih =>
      rw [Action.perform]
      by_cases room : m.HasRoom
      · rw [push_eq room]
        exact (ih (m := m.withStack (m.stack.push v)) told vouches).beside (room.beside v)
      · rw [push, if_pos (Nat.le_of_not_lt room)]
        exact ih told vouches
  | call name args next ih => exact ih _ told (vouches.2 _ (told _))
  | interpret r next ih => exact ih _ told (vouches.2 _ (told _))
  | clock next ih =>
      have ticked : m.Beside { m with world := m.world.readClock.2 } := ⟨rfl, rfl, id⟩
      exact (ih m.world.readClock.1 (m := { m with world := m.world.readClock.2 }) told
        (vouches _)).beside ticked
  | random next ih =>
      have drawn : m.Beside { m with world := m.world.draw.2 } := ⟨rfl, rfl, id⟩
      exact (ih m.world.draw.1 (m := { m with world := m.world.draw.2 }) told
        (vouches _)).beside drawn

structure Called (before after : Machine) (entered : List Frame) : Prop where
  reframed : before.Reframed (entered ++ before.frames) after
  one : entered.length ≤ 1
  seated : ∀ callee ∈ entered, callee.base < before.height
  allowed : entered ≠ [] → before.frames.length < before.maxFrames

theorem Called.of_beside {m after : Machine} (beside : m.Beside after) : m.Called after [] :=
  ⟨beside, Nat.zero_le _, nofun, fun none => absurd rfl none⟩

theorem enter_meets {m : Machine} {own : Fault → Prop} (told : ∀ cause, own (m.faultOf cause))
    (r : Routine) {count : Nat} (present : count < m.height) :
    (m.enter r count).Meets (fun after => ∃ entered, m.Called after entered) own m.Beside := by
  rw [enter]
  split
  · exact ⟨told _, .refl m⟩
  · split
    · exact ⟨told _, .refl m⟩
    · rename_i shallow
      refine ⟨[_], ⟨rfl, rfl, id⟩, Nat.le_refl _, ?_, fun _ => Nat.lt_of_not_le shallow⟩
      intro callee member
      rw [List.mem_singleton.mp member]
      dsimp only
      omega

theorem callValue_meets {host : Host} {m : Machine} {own : Fault → Prop}
    (told : ∀ cause, own (m.faultOf cause)) (vouches : ∀ n args, (host n args).Vouches own)
    (callee : Value) {count : Nat} (present : count < m.height) :
    (m.callValue (performBusy host) callee count).Meets (fun after => ∃ entered, m.Called after entered)
      own m.Beside := by
  cases callee with
  | routine r => exact enter_meets told r present
  | native n =>
      rw [callValue, callNative]
      split
      · exact ⟨told _, .refl m⟩
      · have performed := perform_meets (host n (m.stack.top count)) told (vouches _ _)
        dsimp only
        rw [performBusy]
        generalize (host n (m.stack.top count)).perform _ _ m = ending at performed ⊢
        cases ending with
        | done v after =>
            refine (cutOn_meets told ?_ v performed).mono (fun last beside => ?_) fun last => id
            · exact Nat.le_trans (Nat.sub_le ..) (Nat.sub_le ..)
            · exact ⟨[], .of_beside beside⟩
        | _ => exact performed
  | _ => exact ⟨told _, .refl m⟩

section

variable {m : Machine} {frame : Frame} {rest : List Frame} (frames : m.frames = frame :: rest)
  {own : Fault → Prop} (told : ∀ cause, own (m.faultOf cause))

include frames

theorem jumpBy_reframed (distance : Int) :
    m.Reframed ({ frame with ip := frame.ip + distance } :: rest) (m.jumpBy distance) := by
  rw [jumpBy, frames]
  exact ⟨rfl, rfl, id⟩

include told

theorem leave_meets (seated : frame.base < m.maxHeight) :
    m.leave.Meets (m.Reframed rest) own m.Beside := by
  refine popThen_meets told fun v after beside => ?_
  rw [beside.frames, frames]
  dsimp only
  have low := after.stack.height_resize frame.base
  generalize baseEq : ({ after with frames := rest, stack := after.stack.resize frame.base } : Machine)
    = base
  have limits : base.maxFrames = m.maxFrames := by
    rw [← baseEq]
    exact beside.maxFrames
  have room : base.HasRoom := by
    rw [HasRoom, maxHeight, limits, ← baseEq]
    exact Nat.lt_of_le_of_lt low seated
  have left : m.Reframed rest (base.withStack (base.stack.push v)) := by
    refine ⟨by rw [← baseEq]; rfl, limits, fun _ => ?_⟩
    rw [height, withStack, Stack.height_push]
    exact room
  rw [pushOn_eq room]
  dsimp only
  split
  · exact left
  · rename_i still
    refine ⟨left, ?_⟩
    simpa [isRunning] using still

end

/-- How an operation leaves the calls in progress, the innermost of which it belongs to. -/
def Follows (m : Machine) (frame : Frame) (rest : List Frame) (op : Operation) (operand : Nat)
    (after : Machine) : Prop :=
  match op with
  | .jump => m.Reframed ({ frame with ip := frame.ip + operand } :: rest) after
  | .jumpIfFalse =>
    ∃ v, m.peek 0 = .ok v ∧
      m.Reframed ({ frame with ip := if v.falsey then frame.ip + operand else frame.ip } :: rest) after
  | .loop => m.Reframed ({ frame with ip := frame.ip + -operand } :: rest) after
  | .call => ∃ entered, m.Called after entered
  | .return => m.Reframed rest after
  | _ => m.Beside after

theorem execute_follows (host : Host) {m : Machine} {frame : Frame} {rest : List Frame}
    {own : Fault → Prop} (frames : m.frames = frame :: rest) (seated : frame.base < m.maxHeight)
    (told : ∀ cause, own (m.faultOf cause)) (vouches : ∀ n args, (host n args).Vouches own)
    (op : Operation) (operand : Nat) :
    (execute host m frame op operand).Meets (m.Follows frame rest op operand) own m.Beside := by
  cases op with
  | jump => exact jumpBy_reframed frames operand
  | loop => exact jumpBy_reframed frames (-operand)
  | jumpIfFalse =>
      refine peekThen_meets told fun v peeked => ⟨v, peeked, ?_⟩
      by_cases falsey : v.falsey = true
      · rw [if_pos falsey, if_pos falsey]
        exact jumpBy_reframed frames operand
      · rw [if_neg falsey, if_neg falsey]
        exact .lowered frames rfl (Nat.le_refl _)
  | call =>
      exact peekThen_meets told fun callee peeked =>
        callValue_meets told vouches callee (peek_present peeked)
  | «return» => exact leave_meets frames told seated
  | _ => exact execute_meets told frame operand (by decide)

/-- The machine is within its limits, and so is everything in progress. -/
structure Bounded (m : Machine) : Prop where
  height : m.height ≤ m.maxHeight
  depth : m.frames.length ≤ m.maxFrames
  seated : ∀ frame ∈ m.frames, frame.base < m.maxHeight

/-- The machine is within its limits, which allow a number of calls. -/
structure Fits (limit : Nat) (m : Machine) : Prop extends Bounded m where
  maxFrames : m.maxFrames = limit

namespace Fits

variable {limit : Nat} {before after : Machine} (fits : before.Fits limit)

include fits

theorem reframed {fs : List Frame} (reframed : before.Reframed fs after)
    (depth : fs.length ≤ before.maxFrames) (seated : ∀ frame ∈ fs, frame.base < before.maxHeight) :
    after.Fits limit where
  height := reframed.height fits.height
  depth := by rw [reframed.frames, reframed.maxFrames]; exact depth
  seated := by rw [reframed.frames, maxHeight, reframed.maxFrames]; exact seated
  maxFrames := reframed.maxFrames.trans fits.maxFrames

theorem beside (beside : before.Beside after) : after.Fits limit :=
  fits.reframed beside fits.depth fits.seated

theorem called {entered : List Frame} (called : before.Called after entered) : after.Fits limit := by
  refine fits.reframed called.reframed ?_ ?_
  · rw [List.length_append]
    by_cases none : entered = []
    · rw [none, List.length_nil, Nat.zero_add]
      exact fits.depth
    · have one := called.one
      have allowed := called.allowed none
      omega
  · intro other member
    rcases List.mem_append.mp member with new | old
    · exact Nat.lt_of_lt_of_le (called.seated other new) fits.height
    · exact fits.seated other old

theorem pointed {frame : Frame} {rest : List Frame} (frames : before.frames = frame :: rest)
    {last ip : Int} (reframed : before.Reframed ({ frame with last, ip } :: rest) after) :
    after.Fits limit := by
  have depth := fits.depth
  have seated := fits.seated
  rw [frames] at depth seated
  refine fits.reframed reframed depth ?_
  rintro other (_ | ⟨_, member⟩)
  · exact seated frame List.mem_cons_self
  · exact seated other (List.mem_cons_of_mem frame member)

end Fits

theorem Follows.fits {m after : Machine} {limit : Nat} {frame : Frame} {rest : List Frame} {op : Operation}
    {operand : Nat} (follows : m.Follows frame rest op operand after) (fits : m.Fits limit)
    (frames : m.frames = frame :: rest) : after.Fits limit := by
  cases op with
  | jump | loop => exact fits.pointed frames follows
  | jumpIfFalse =>
      obtain ⟨v, -, reframed⟩ := follows
      exact fits.pointed frames reframed
  | call =>
      obtain ⟨entered, called⟩ := follows
      exact fits.called called
  | «return» =>
      have depth := fits.depth
      have seated := fits.seated
      rw [frames] at depth seated
      refine fits.reframed follows (Nat.le_of_succ_le depth) fun other member => ?_
      exact seated other (List.mem_cons_of_mem frame member)
  | _ => exact fits.beside follows

def fetchByte (m : Machine) (frame : Frame) (rest : List Frame) (b : UInt8) (size : Nat) : Machine :=
  { { m with count := m.count + 1 }.noteTrace { frame with last := frame.ip } b with
    frames := { frame with last := frame.ip, ip := frame.ip + size } :: rest }

theorem fetchByte_eq (m : Machine) (frame : Frame) (rest : List Frame) (op : Operation) :
    m.fetchByte frame rest op.byte (1 + op.operand.width) = m.fetch frame rest op := by
  have ip : frame.ip + ((1 + op.operand.width : Nat) : Int) = frame.ip + 1 + op.operand.width := by
    omega
  rw [fetchByte, fetch, Frame.fetch, ip]

theorem fetchByte_with (m : Machine) (frame : Frame) (rest : List Frame) (b : UInt8) (size : Nat) :
    ∃ count trace, m.fetchByte frame rest b size =
      { m with frames := { frame with last := frame.ip, ip := frame.ip + size } :: rest, count, trace } := by
  rw [fetchByte, noteTrace]
  split <;> exact ⟨_, _, rfl⟩

theorem fetchByte_reframed (m : Machine) (frame : Frame) (rest : List Frame) (b : UInt8) (size : Nat) :
    m.Reframed ({ frame with last := frame.ip, ip := frame.ip + size } :: rest)
      (m.fetchByte frame rest b size) := by
  obtain ⟨count, trace, fetched⟩ := m.fetchByte_with frame rest b size
  rw [fetched]
  exact ⟨rfl, rfl, id⟩

/-- What a step reads decides what it does. -/
theorem step_cases (host : Host) {m : Machine} {frame : Frame} {rest : List Frame}
    (frames : m.frames = frame :: rest) :
    (∃ reason after, m.step host = .crash reason after ∧ ∃ count trace,
      after = { m with frames := { frame with last := frame.ip } :: rest, count, trace }) ∨
    (∃ b, byteAt? frame.routine frame.ip = some b ∧ Operation.ofByte? b = none ∧
      m.step host = (m.fetchByte frame rest b 1).raise (.unknownOperation b)) ∨
    ∃ op operand, byteAt? frame.routine frame.ip = some op.byte ∧
      frame.routine.operandAt? (frame.ip.toNat + 1) op.operand.width = some operand ∧
      m.step host = execute host (m.fetch frame rest op) (frame.fetch op) op operand := by
  cases byte : byteAt? frame.routine frame.ip with
  | none =>
      left
      simp only [step, frames, byte]
      exact ⟨endOfCode, _, rfl, _, _, rfl⟩
  | some b =>
      cases known : Operation.ofByte? b with
      | none =>
          refine .inr (.inl ⟨b, rfl, known, ?_⟩)
          simp only [step, frames, byte, known, fetchByte]
          rfl
      | some op =>
          obtain rfl := Operation.byte_of_known known
          cases read : frame.routine.operandAt? (frame.ip.toNat + 1) op.operand.width with
          | none =>
              left
              simp only [step, frames, byte, known, read]
              refine ⟨endOfCode, _, rfl, ?_⟩
              rw [noteTrace]
              split <;> exact ⟨_, _, rfl⟩
          | some operand => exact .inr (.inr ⟨op, operand, rfl, read, step_eq frames byte read⟩)

theorem Fits.fetch {m : Machine} {limit : Nat} {frame : Frame} {rest : List Frame} (fits : m.Fits limit)
    (frames : m.frames = frame :: rest) (op : Operation) : (m.fetch frame rest op).Fits limit := by
  rw [← fetchByte_eq]
  exact fits.pointed frames (m.fetchByte_reframed ..)

theorem Bounded.fetch {m : Machine} {frame : Frame} {rest : List Frame} (bounded : m.Bounded)
    (frames : m.frames = frame :: rest) (op : Operation) : (m.fetch frame rest op).Bounded :=
  (Fits.fetch ⟨bounded, rfl⟩ frames op).toBounded

theorem Fits.step {m : Machine} {limit : Nat} (host : Host) (fits : m.Fits limit) :
    (m.step host).machine.Fits limit := by
  cases frames : m.frames with
  | nil =>
      rw [Machine.step, frames]
      exact fits
  | cons frame rest =>
      rcases step_cases host frames with
        ⟨_, after, crashed, count, trace, left⟩ | ⟨b, _, _, raised⟩ | ⟨op, operand, _, _, ran⟩
      · have reframed : m.Reframed ({ frame with last := frame.ip } :: rest) after := by
          rw [left]
          exact ⟨rfl, rfl, id⟩
        rw [crashed]
        exact fits.pointed frames reframed
      · rw [raised]
        exact fits.pointed frames (m.fetchByte_reframed frame rest b 1)
      · have fetched := fits.fetch frames op
        have follows := execute_follows host (m.fetch_frames frame rest op)
          (fetched.seated _ List.mem_cons_self) (fun _ => trivial)
          (fun n args => (host n args).vouches_any) op operand
        rw [← ran] at follows
        exact follows.machine (fun after follows => follows.fits fetched (m.fetch_frames ..))
          fun after => fetched.beside

theorem Bounded.step {host : Host} {m after : Machine} (bounded : m.Bounded)
    (stepped : m.step host = .next after) : after.Bounded := by
  have fits := Fits.step host ⟨bounded, rfl⟩
  rw [stepped] at fits
  exact fits.toBounded

theorem height_pushAll {m full : Machine} {vs : List Value} (pushed : m.pushAll vs = .ok full) :
    full.height = m.height + vs.length := by
  obtain ⟨s, rfl, values⟩ := pushAll_eq pushed
  rw [height, withStack, ← Stack.length_values, values, List.length_append, length_values]

theorem pushAll_room {m full : Machine} {v : Value} {vs : List Value}
    (pushed : m.pushAll (v :: vs) = .ok full) : full.height ≤ full.maxHeight := by
  induction vs generalizing m v with
  | nil =>
      rw [pushAll] at pushed
      by_cases room : m.HasRoom
      · rw [push_eq room] at pushed
        rw [← Except.ok.inj pushed, height, withStack, Stack.height_push]
        exact room
      · rw [push, if_pos (Nat.le_of_not_lt room)] at pushed
        cases pushed
  | cons w rest ih =>
      rw [pushAll] at pushed
      split at pushed
      · exact ih pushed
      · cases pushed

theorem Starts.bounded {m first : Machine} {r : Routine} {args : List Value}
    (starts : m.Starts r args first) : first.Bounded := by
  obtain ⟨full, pushed, entered⟩ := starts
  have height := height_pushAll pushed
  have room := pushAll_room pushed
  have idle : full.frames = [] := by
    obtain ⟨s, rfl, -⟩ := pushAll_eq pushed
    rfl
  rw [List.length_cons] at height
  rw [enter] at entered
  split at entered
  · cases entered
  · split at entered
    · cases entered
    · rename_i shallow
      rw [← Step.next.inj entered]
      refine ⟨room, ?_, ?_⟩
      · exact Nat.lt_of_not_le shallow
      · intro frame member
        rw [idle] at member
        rw [List.mem_singleton.mp member]
        show full.height - args.length - 1 < full.maxHeight
        omega

theorem Reaches.bounded {host : Host} {first m : Machine} (bounded : first.Bounded)
    (reaches : Reaches host first m) : m.Bounded := by
  induction reaches with
  | here => exact bounded
  | next reaches stepped ih => exact ih.step stepped

end Machine

end Reckoner
