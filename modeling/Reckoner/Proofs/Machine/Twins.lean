import Reckoner.Proofs.Machine.Safety

/-!
Machines that run alike. A run sees nothing of the stack below its first call, of the cells above the
top, or of what was written before it began. Two machines that agree on all else take the same steps,
and what they do not share stays as it was.
-/

namespace Reckoner

namespace Machine

/-- What a run has no part in: the stack below it, and what was written and traced before. -/
structure Past where
  below : List Value
  written : Array (Channel × String)
  trace : Option (Array TraceEntry)

def past (m : Machine) : Past := ⟨m.values, m.written, m.trace⟩

/-- Two machines that differ in their pasts only. -/
structure Twins (p q : Past) (a b : Machine) : Prop where
  level : p.below.length = q.below.length
  frames : a.frames = b.frames
  globals : a.globals = b.globals
  maxFrames : a.maxFrames = b.maxFrames
  count : a.count = b.count
  world : a.world = b.world
  values : ∃ t, a.values = p.below ++ t ∧ b.values = q.below ++ t
  written : ∃ w, a.written = p.written ++ w ∧ b.written = q.written ++ w
  trace : ∃ e, a.trace = p.trace.map (· ++ e) ∧ b.trace = q.trace.map (· ++ e)

def Rooted (base : Nat) : List Frame → Prop
  | [] => False
  | [frame] => frame.base = base
  | _ :: rest => Rooted base rest

theorem Waiting.rooted {base root : Nat} {rest : List Frame} (waiting : Waiting base rest)
    (rooted : Rooted root rest) : root ≤ base := by
  induction rest generalizing base with
  | nil => exact rooted.elim
  | cons frame rest ih =>
      obtain ⟨-, bound, -, others⟩ := waiting
      cases rest with
      | nil => exact rooted ▸ bound
      | cons outer rest => exact Nat.le_trans (ih others rooted) bound

theorem Rooted.based {root : Nat} {m : Machine} {frame : Frame} {rest : List Frame} {depth : Nat}
    (rooted : Rooted root m.frames) (within : m.Within frame rest depth) : root ≤ frame.base := by
  rw [within.frames] at rooted
  cases rest with
  | nil => exact Nat.le_of_eq rooted.symm
  | cons outer rest => exact within.waiting.rooted rooted

theorem Rooted.replace {root : Nat} {frame other : Frame} {rest : List Frame}
    (rooted : Rooted root (frame :: rest)) (same : other.base = frame.base) :
    Rooted root (other :: rest) := by
  cases rest with
  | nil => exact same.trans rooted
  | cons outer rest => exact rooted

end Machine

/-- Two steps with the same outcome. A run that goes on has the base it started from, and one that is
over has left a value there. -/
def Step.Twins (p q : Machine.Past) : Step → Step → Prop
  | .next a, .next b => a.Twins p q b ∧ Machine.Rooted q.below.length b.frames
  | .finished a, .finished b => a.Twins p q b ∧ ∃ v, b.values = q.below ++ [v]
  | .fault f a, .fault g b => f = g ∧ a.Twins p q b ∧ b.ProperGlobals
  | .crash reason _, .crash other _ => reason = other
  | .exhausted _, .exhausted _ => True
  | _, _ => False

def Frame.entry (frame : Frame) (byte : UInt8) (calls : List Frame) : TraceEntry :=
  { byte, routine := frame.routine.display, line := frame.routine.lineAt frame.last,
    offset := frame.last, depth := calls.length }

namespace Machine

theorem noteTrace_eq (m : Machine) (frame : Frame) (byte : UInt8) :
    m.noteTrace frame byte =
      { m with trace := m.trace.map fun old => old.push (frame.entry byte m.frames) } := by
  rw [noteTrace]
  split <;> rename_i kept
  · rw [kept]
    exact congrArg (fun trace => { m with trace }) kept
  · rw [kept]
    rfl

namespace Twins

variable {p q : Past} {a b : Machine} (twins : Twins p q a b)

include twins

theorem height : a.height = b.height := by
  obtain ⟨t, left, right⟩ := twins.values
  rw [← length_values, ← length_values, left, right, List.length_append, List.length_append,
    twins.level]

theorem room : a.HasRoom ↔ b.HasRoom := by
  rw [HasRoom, HasRoom, twins.height, maxHeight, maxHeight, twins.maxFrames]

theorem faultOf (cause : Cause) : a.faultOf cause = b.faultOf cause := by
  rw [Machine.faultOf, Machine.faultOf, twins.frames]

theorem global? (name : String) : a.global? name = b.global? name := by
  rw [Machine.global?, Machine.global?, twins.globals]

theorem withStack {s u : Stack} {t : List Value} (left : s.values = p.below ++ t)
    (right : u.values = q.below ++ t) : Twins p q (a.withStack s) (b.withStack u) :=
  { twins with values := ⟨t, left, right⟩ }

theorem withFrames (frames : List Frame) :
    Twins p q { a with frames } { b with frames } :=
  { twins with frames := rfl }

theorem withWorld (world : World) : Twins p q { a with world } { b with world } :=
  { twins with world := rfl }

theorem define (name : String) (v : Value) : Twins p q (a.define name v) (b.define name v) :=
  { twins with globals := by rw [Machine.define, Machine.define, twins.globals] }

theorem write (channel : Channel) (text : String) :
    Twins p q (a.write channel text) (b.write channel text) := by
  obtain ⟨w, left, right⟩ := twins.written
  refine { twins with written := ⟨w.push (channel, text), ?_, ?_⟩ }
  · rw [Machine.write, left, Array.append_push]
  · rw [Machine.write, right, Array.append_push]

theorem push (v : Value) :
    Twins p q (a.withStack (a.stack.push v)) (b.withStack (b.stack.push v)) := by
  obtain ⟨t, left, right⟩ := twins.values
  refine twins.withStack (t := t ++ [v]) ?_ ?_
  · rw [Stack.values_push, ← List.append_assoc, ← left]
    rfl
  · rw [Stack.values_push, ← List.append_assoc, ← right]
    rfl

theorem resize {n : Nat} (above : q.below.length ≤ n) (bound : n ≤ b.height) :
    Twins p q (a.withStack (a.stack.resize n)) (b.withStack (b.stack.resize n)) := by
  obtain ⟨t, left, right⟩ := twins.values
  refine twins.withStack (t := t.take (n - q.below.length)) ?_ ?_
  · rw [Stack.values_resize (show n ≤ a.height by rw [twins.height]; exact bound),
      show a.stack.values = p.below ++ t from left, List.take_append, ← twins.level,
      List.take_of_length_le (by rw [twins.level]; exact above)]
  · rw [Stack.values_resize bound, show b.stack.values = q.below ++ t from right, List.take_append,
      List.take_of_length_le above]

theorem set {slot : Nat} (above : q.below.length ≤ slot) (v : Value) :
    Twins p q (a.withStack (a.stack.set slot v)) (b.withStack (b.stack.set slot v)) := by
  obtain ⟨t, left, right⟩ := twins.values
  refine twins.withStack (t := t.set (slot - q.below.length) v) ?_ ?_
  · rw [Stack.values_set, show a.stack.values = p.below ++ t from left,
      List.set_append_right _ _ (by rw [twins.level]; exact above), twins.level]
  · rw [Stack.values_set, show b.stack.values = q.below ++ t from right,
      List.set_append_right _ _ above]

theorem get? {slot : Nat} (above : q.below.length ≤ slot) : a.stack.get? slot = b.stack.get? slot := by
  obtain ⟨t, left, right⟩ := twins.values
  rw [Stack.get?_eq, Stack.get?_eq, show a.stack.values = p.below ++ t from left,
    show b.stack.values = q.below ++ t from right,
    List.getElem?_append_right (by rw [twins.level]; exact above),
    List.getElem?_append_right above, twins.level]

theorem noteTrace (frame : Frame) (byte : UInt8) :
    Twins p q (a.noteTrace frame byte) (b.noteTrace frame byte) := by
  obtain ⟨e, left, right⟩ := twins.trace
  rw [noteTrace_eq, noteTrace_eq, twins.frames]
  refine { twins with frames := rfl, trace := ⟨e.push (frame.entry byte b.frames), ?_, ?_⟩ }
  · rw [left, Option.map_map]
    exact congrArg (fun f => p.trace.map f) (funext fun _ => Array.append_push.symm)
  · rw [right, Option.map_map]
    exact congrArg (fun f => q.trace.map f) (funext fun _ => Array.append_push.symm)

theorem fetch (frame : Frame) (rest : List Frame) (op : Operation) :
    Twins p q (a.fetch frame rest op) (b.fetch frame rest op) := by
  have counted : Twins p q { a with count := a.count + 1 } { b with count := b.count + 1 } :=
    { twins with count := congrArg (· + 1) twins.count }
  exact (counted.noteTrace _ _).withFrames _

theorem raise (globals : b.ProperGlobals) (cause : Cause) :
    (a.raise cause).Twins p q (b.raise cause) :=
  ⟨twins.faultOf cause, twins, globals⟩

theorem pushOn (globals : b.ProperGlobals) (rooted : Rooted q.below.length b.frames) (v : Value) :
    (a.pushOn v).Twins p q (b.pushOn v) := by
  by_cases room : b.HasRoom
  · rw [pushOn_eq room, pushOn_eq (twins.room.mpr room)]
    exact ⟨twins.push v, rooted⟩
  · rw [pushOn_full room, pushOn_full fun other => room (twins.room.mp other)]
    exact twins.raise globals _

theorem split {frame : Frame} {rest : List Frame} {depth n : Nat}
    (within : b.Within frame rest depth) (based : q.below.length ≤ frame.base) (enough : n < depth) :
    ∃ t s, s.length = n ∧ a.values = p.below ++ t ++ s ∧ b.values = q.below ++ t ++ s ∧
      q.below.length + t.length + n = frame.base + depth := by
  obtain ⟨t, left, right⟩ := twins.values
  have length := within.length
  rw [right, List.length_append] at length
  refine ⟨t.take (t.length - n), t.drop (t.length - n), ?_, ?_, ?_, ?_⟩
  · rw [List.length_drop]
    omega
  · rw [List.append_assoc, List.take_append_drop]
    exact left
  · rw [List.append_assoc, List.take_append_drop]
    exact right
  · rw [List.length_take]
    omega

section

variable {frame : Frame} {rest : List Frame} {depth : Nat} (within : b.Within frame rest depth)
  (rooted : Rooted q.below.length b.frames)

include within rooted

theorem popThen (enough : 1 < depth) (next : Value → Machine → Step) :
    ∃ v c d, a.popThen next = next v c ∧ b.popThen next = next v d ∧ Twins p q c d ∧
      d.Within frame rest (depth - 1) ∧ Rooted q.below.length d.frames := by
  obtain ⟨t, s, length, left, right, sizes⟩ :=
    twins.split within (rooted.based within) enough
  obtain ⟨v, rfl⟩ := List.length_eq_one_iff.mp length
  refine ⟨v, _, _, popThen_eq left next, popThen_eq right next, ?_, ?_, rooted⟩
  · exact twins.withStack (Stack.values_below left v) (Stack.values_below right v)
  · refine within.withStack ?_ ?_
    · rw [← Stack.length_values, Stack.values_below right, List.length_append]
      omega
    · intro w member
      rw [Stack.values_below right] at member
      exact within.values w (by rw [right]; exact List.mem_append_left _ member)

theorem peekThen {distance : Nat} (enough : distance + 1 < depth) :
    ∃ v, v ∈ b.values ∧ (∀ next, a.peekThen distance next = next v) ∧
      ∀ next, b.peekThen distance next = next v := by
  obtain ⟨t, s, length, left, right, -⟩ :=
    twins.split within (rooted.based within) enough
  cases s with
  | nil => exact absurd length (by simp)
  | cons v s =>
      have distanceEq : s.length = distance := Nat.succ.inj length
      exact ⟨v, by rw [right]; simp, peekThen_eq left distanceEq, peekThen_eq right distanceEq⟩

theorem twoNumbers (enough : 2 < depth) {f g : Decimal → Decimal → Step}
    (same : ∀ x y, (f x y).Twins p q (g x y)) :
    (a.twoNumbers f).Twins p q (b.twoNumbers g) := by
  obtain ⟨y, -, first, second⟩ := twins.peekThen within rooted (show 0 + 1 < depth by omega)
  obtain ⟨x, -, third, fourth⟩ := twins.peekThen within rooted (show 1 + 1 < depth from enough)
  rw [Machine.twoNumbers, Machine.twoNumbers, first, second, third, fourth]
  split
  · exact same _ _
  · exact twins.raise within.globals _

theorem replaceTwo (enough : 2 < depth) (v : Value) :
    (a.replaceTwo v).Twins p q (b.replaceTwo v) := by
  have based := rooted.based within
  have height := within.height
  have lowered := twins.resize (n := b.height - 2) (by omega) (Nat.sub_le ..)
  rw [Machine.replaceTwo, Machine.replaceTwo, twins.height]
  exact lowered.pushOn within.globals rooted v

theorem arithmetic (enough : 2 < depth) (f : Decimal → Decimal → Except ArithmeticError Decimal) :
    (a.arithmetic f).Twins p q (b.arithmetic f) := by
  refine twins.twoNumbers within rooted enough fun x y => ?_
  split
  · exact twins.replaceTwo within rooted enough _
  · exact twins.raise within.globals _

theorem jumpBy (distance : Int) :
    Twins p q (a.jumpBy distance) (b.jumpBy distance) ∧
      Rooted q.below.length (b.jumpBy distance).frames := by
  have frames := within.frames
  rw [Machine.jumpBy, Machine.jumpBy, twins.frames, frames]
  rw [frames] at rooted
  exact ⟨twins.withFrames _, rooted.replace rfl⟩

theorem enter {count : Nat} (r : Routine) :
    (a.enter r count).Twins p q (b.enter r count) := by
  rw [Machine.enter, Machine.enter]
  by_cases arity : r.arity ≠ count
  · rw [if_pos arity, if_pos arity]
    exact twins.raise within.globals _
  · rw [if_neg arity, if_neg arity]
    by_cases deep : b.maxFrames ≤ b.frames.length
    · rw [if_pos deep, if_pos (by rw [twins.maxFrames, twins.frames]; exact deep)]
      exact twins.raise within.globals _
    · rw [if_neg deep, if_neg (by rw [twins.maxFrames, twins.frames]; exact deep)]
      dsimp only
      rw [twins.height, twins.frames]
      refine ⟨twins.withFrames _, ?_⟩
      rw [within.frames] at rooted ⊢
      exact rooted

theorem leave (enough : 1 < depth) : a.leave.Twins p q b.leave := by
  have based := rooted.based within
  obtain ⟨t, s, length, left, right, sizes⟩ := twins.split within based enough
  obtain ⟨v, rfl⟩ := List.length_eq_one_iff.mp length
  have frames : a.frames = frame :: rest := twins.frames.trans within.frames
  have handed : Twins p q (a.handed frame rest v) (b.handed frame rest v) := by
    have popped := twins.withStack (Stack.values_below left v) (Stack.values_below right v)
    have height : frame.base ≤ (b.withStack (b.stack.below v)).height := by
      rw [← length_values, Machine.values, Machine.withStack, Stack.values_below right,
        List.length_append]
      omega
    exact (popped.resize based height).withFrames rest
  have globals : (b.handed frame rest v).ProperGlobals := within.globals
  by_cases room : (b.handed frame rest v).HasRoom
  · rw [leave_room within.frames right room, leave_room frames left (handed.room.mpr room)]
    rw [within.frames] at rooted
    cases rest with
    | nil =>
        have root : frame.base = q.below.length := rooted
        refine ⟨handed.push v, v, ?_⟩
        rw [Machine.values, Machine.withStack, Stack.values_push]
        have whole := values_handed frame [] right (by rw [List.length_append]; omega)
        rw [root, List.take_left] at whole
        exact congrArg (· ++ [v]) whole
    | cons outer rest => exact ⟨handed.push v, rooted⟩
  · rw [leave_full within.frames right room,
      leave_full frames left fun other => room (handed.room.mp other)]
    exact handed.raise globals _

end

theorem own : Twins a.past b.past a b :=
  { twins with
    level := by rw [past, past, length_values, length_values]; exact twins.height
    values := ⟨[], (List.append_nil _).symm, (List.append_nil _).symm⟩
    written := ⟨#[], Array.append_empty.symm, Array.append_empty.symm⟩
    trace := by
      have same : ∀ trace : Option (Array TraceEntry), trace = trace.map (· ++ #[]) := by
        intro trace
        simp
      exact ⟨#[], same a.trace, same b.trace⟩ }

theorem rebase {c d : Machine} (later : Twins a.past b.past c d) : Twins p q c d := by
  obtain ⟨t, left, right⟩ := twins.values
  obtain ⟨s, more, others⟩ := later.values
  obtain ⟨w, wrote, written⟩ := twins.written
  obtain ⟨x, wroteMore, writtenMore⟩ := later.written
  obtain ⟨e, traced, noted⟩ := twins.trace
  obtain ⟨f, tracedMore, notedMore⟩ := later.trace
  refine { later with
    level := twins.level
    values := ⟨t ++ s, ?_, ?_⟩
    written := ⟨w ++ x, ?_, ?_⟩
    trace := ⟨e ++ f, ?_, ?_⟩ }
  · rw [more, past, left, List.append_assoc]
  · rw [others, past, right, List.append_assoc]
  · rw [wroteMore, past, wrote, Array.append_assoc]
  · rw [writtenMore, past, written, Array.append_assoc]
  · rw [tracedMore, past, traced, Option.map_map]
    exact congrArg (fun f => p.trace.map f) (funext fun _ => Array.append_assoc)
  · rw [notedMore, past, noted, Option.map_map]
    exact congrArg (fun f => q.trace.map f) (funext fun _ => Array.append_assoc)

end Twins

end Machine

def Ending.Alike {α : Type} (p q : Machine.Past) (done : α → Machine → Prop)
    (failed : Machine → Prop) : Ending α → Ending α → Prop
  | .done v a, .done w b => v = w ∧ a.Twins p q b ∧ done w b
  | .fault f a, .fault g b => f = g ∧ a.Twins p q b ∧ failed b
  | .crash reason _, .crash other _ => reason = other
  | .exhausted _, .exhausted _ => True
  | _, _ => False

def Action.Honest : Action → Prop
  | .answer v => v.Proper
  | .fail _ | .passOn _ | .crash _ => True
  | .height next => ∀ n, (next n).Honest
  | .define _ v next | .push v next => v.Proper ∧ next.Honest
  | .call _ args next =>
    (∀ v ∈ args, v.Proper) ∧ (∀ f, (next (.error f)).Honest) ∧ ∀ v, v.Proper → (next (.ok v)).Honest
  | .interpret r next => r.Compiled ∧ ∀ f, (next f).Honest
  | .clock next | .random next => ∀ d, (next d).Honest

/-- The natives hand over compiled routines only. -/
def Host.Honest (host : Host) : Prop := ∀ n args, (∀ v ∈ args, v.Proper) → (host n args).Honest

namespace Machine

/-- A condition that a native cannot break by what it hands over. -/
structure Steady (keep : Machine → Prop) : Prop where
  define : ∀ m name v, keep m → v.Proper → keep (m.define name v)
  push : ∀ m v, keep m → v.Proper → keep (m.withStack (m.stack.push v))
  world : ∀ m world, keep m → keep { m with world }

theorem perform_alike {call : String → List Value → Machine → Ending Value}
    {interpret : Routine → Machine → Ending Unit} {keep : Machine → Prop} (steady : Steady keep)
    {p q : Past}
    (calls : ∀ name args a b, (∀ v ∈ args, v.Proper) → Twins p q a b → keep b →
      (call name args a).Alike p q (fun v b => v.Proper ∧ keep b) keep (call name args b))
    (interprets : ∀ r a b, r.Compiled → Twins p q a b → keep b →
      (interpret r a).Alike p q (fun _ b => keep b) keep (interpret r b))
    {action : Action} (honest : action.Honest) {a b : Machine} (twins : Twins p q a b)
    (kept : keep b) :
    (action.perform call interpret a).Alike p q (fun v b => v.Proper ∧ keep b) keep
      (action.perform call interpret b) := by
  induction action generalizing a b with
  | answer v => exact ⟨rfl, twins, honest, kept⟩
  | fail e => exact ⟨twins.faultOf _, twins, kept⟩
  | passOn f => exact ⟨rfl, twins, kept⟩
  | crash reason => exact rfl
  | height next ih =>
      rw [Action.perform, Action.perform, twins.height]
      exact ih b.height (honest b.height) twins kept
  | define name v next ih =>
      rw [Action.perform, Action.perform]
      exact ih honest.2 (twins.define name v) (steady.define b name v kept honest.1)
  | push v next ih =>
      rw [Action.perform, Action.perform]
      by_cases room : b.HasRoom
      · rw [push_eq room, push_eq (twins.room.mpr room)]
        exact ih honest.2 (twins.push v) (steady.push b v kept honest.1)
      · rw [Machine.push, Machine.push, if_pos (Nat.le_of_not_lt room),
          if_pos (Nat.le_of_not_lt fun other => room (twins.room.mp other))]
        exact ih honest.2 twins kept
  | call name args next ih =>
      obtain ⟨propers, failing, answered⟩ := honest
      have same := calls name args a b propers twins kept
      rw [Action.perform, Action.perform]
      generalize call name args a = left at same ⊢
      generalize call name args b = right at same ⊢
      cases left <;> cases right <;> try exact same.elim
      · obtain ⟨rfl, later, proper, stays⟩ := same
        exact ih _ (answered _ proper) later stays
      · obtain ⟨rfl, later, stays⟩ := same
        exact ih _ (failing _) later stays
      · exact same
      · trivial
  | interpret r next ih =>
      obtain ⟨compiled, others⟩ := honest
      have same := interprets r a b compiled twins kept
      rw [Action.perform, Action.perform]
      generalize interpret r a = left at same ⊢
      generalize interpret r b = right at same ⊢
      cases left <;> cases right <;> try exact same.elim
      · obtain ⟨-, later, stays⟩ := same
        exact ih _ (others _) later stays
      · obtain ⟨rfl, later, stays⟩ := same
        exact ih _ (others _) later stays
      · exact same
      · trivial
  | clock next ih =>
      rw [Action.perform, Action.perform, twins.world]
      generalize b.world.readClock = read
      exact ih read.1 (honest read.1) (twins.withWorld read.2) (steady.world b read.2 kept)
  | random next ih =>
      rw [Action.perform, Action.perform, twins.world]
      generalize b.world.draw = drawn
      exact ih drawn.1 (honest drawn.1) (twins.withWorld drawn.2) (steady.world b drawn.2 kept)

theorem ProperGlobals.define {m : Machine} (globals : m.ProperGlobals) {v : Value} (proper : v.Proper)
    (name : String) : (m.define name v).ProperGlobals := by
  intro other w found
  rw [global?, Machine.define, Std.ExtTreeMap.getElem?_insert] at found
  split at found
  · rw [← Option.some.inj found]
    exact proper
  · exact globals other w found

structure Grown (before after : Machine) : Prop where
  values : ∃ extra, after.values = before.values ++ extra ∧ ∀ v ∈ extra, v.Proper
  frames : after.frames = before.frames
  globals : after.ProperGlobals

theorem Grown.refl {m : Machine} (globals : m.ProperGlobals) : m.Grown m :=
  ⟨⟨[], (List.append_nil _).symm, nofun⟩, rfl, globals⟩

theorem Grown.steady (m : Machine) : Steady m.Grown where
  define after name v grown proper :=
    ⟨grown.values, grown.frames, grown.globals.define proper name⟩
  push after v grown proper := by
    obtain ⟨extra, values, propers⟩ := grown.values
    refine ⟨⟨extra ++ [v], ?_, ?_⟩, grown.frames, grown.globals⟩
    · rw [Machine.values, withStack, Stack.values_push, ← List.append_assoc, ← values]
      rfl
    · intro w member
      rcases List.mem_append.mp member with old | new
      · exact propers w old
      · rw [List.mem_singleton.mp new]
        exact proper
  world after world grown := ⟨grown.values, grown.frames, grown.globals⟩

theorem performBusy_alike {host : Host} (honest : host.Honest) {n : Native} {args : List Value}
    (propers : ∀ v ∈ args, v.Proper) {p q : Past} {a b : Machine} (twins : Twins p q a b)
    (globals : b.ProperGlobals) :
    (performBusy host n args a).Alike p q (fun v after => v.Proper ∧ b.Grown after) b.Grown
      (performBusy host n args b) := by
  refine perform_alike (Grown.steady b) ?_ ?_ (honest n args propers) twins (.refl globals)
  · intro name args a b _ twins kept
    exact ⟨twins.faultOf _, twins, kept⟩
  · intro r a b _ twins kept
    exact ⟨twins.faultOf _, twins, kept⟩

theorem Twins.refl (m : Machine) : Twins m.past m.past m m where
  level := rfl
  frames := rfl
  globals := rfl
  maxFrames := rfl
  count := rfl
  world := rfl
  values := ⟨[], (List.append_nil _).symm, (List.append_nil _).symm⟩
  written := ⟨#[], Array.append_empty.symm, Array.append_empty.symm⟩
  trace := by
    have same : m.trace = m.trace.map (· ++ #[]) := by simp
    exact ⟨#[], same, same⟩

end Machine

theorem Host.Honest.serves {host : Host} (honest : host.Honest) : host.Serves := by
  intro n args m v after propers globals performed
  have alike := Machine.performBusy_alike honest propers (Machine.Twins.refl m) globals (n := n)
  rw [performed] at alike
  obtain ⟨-, -, proper, grown⟩ := alike
  exact ⟨proper, grown.values, grown.frames, grown.globals⟩

namespace Machine

namespace Twins

variable {host : Host} (honest : host.Honest) {p q : Past} {a b : Machine} (twins : Twins p q a b)
  {frame : Frame} {rest : List Frame} {depth : Nat} (within : b.Within frame rest depth)
  (rooted : Rooted q.below.length b.frames)

include honest twins within rooted

theorem callNative (n : Native) {count : Nat} (enough : count + 1 < depth) :
    (a.callNative (performBusy host) n count).Twins p q (b.callNative (performBusy host) n count) := by
  rw [Machine.callNative, Machine.callNative]
  by_cases arity : n.arity ≠ count
  · rw [if_pos arity, if_pos arity]
    exact twins.raise within.globals _
  · rw [if_neg arity, if_neg arity]
    have based := rooted.based within
    obtain ⟨t, s, length, left, right, sizes⟩ :=
      twins.split within based (Nat.lt_of_succ_lt enough)
    have propers : ∀ w ∈ s, w.Proper := by
      intro w member
      exact within.values w (by rw [right]; exact List.mem_append_right _ member)
    dsimp only
    rw [Stack.top_eq left length, Stack.top_eq right length, twins.height]
    have alike := performBusy_alike honest propers twins.own within.globals (n := n)
    generalize performBusy host n s a = one at alike ⊢
    generalize performBusy host n s b = other at alike ⊢
    cases one <;> cases other <;> try exact alike.elim
    · obtain ⟨rfl, later, -, grown⟩ := alike
      obtain ⟨extra, values, -⟩ := grown.values
      have height := within.height
      have bound : b.height - count - 1 ≤ Machine.height ‹Machine› := by
        have size := congrArg List.length values
        rw [List.length_append, length_values, length_values] at size
        omega
      have lowered := (twins.rebase later).resize (n := b.height - count - 1) (by omega) bound
      refine lowered.pushOn grown.globals ?_ _
      rw [← grown.frames] at rooted
      exact rooted
    · obtain ⟨rfl, later, grown⟩ := alike
      exact ⟨rfl, twins.rebase later, grown.globals⟩
    · exact alike
    · trivial

theorem callValue (callee : Value) {count : Nat} (enough : count + 1 < depth) :
    (a.callValue (performBusy host) callee count).Twins p q
      (b.callValue (performBusy host) callee count) := by
  cases callee with
  | routine r => exact twins.enter within rooted r
  | native n => exact twins.callNative honest within rooted n enough
  | _ => exact twins.raise within.globals _

theorem execute {pos : Nat} {d : Script.Directive}
    (reached : Script.Directive.Reached frame.routine pos d depth) :
    (execute host a frame d.op d.operand).Twins p q (execute host b frame d.op d.operand) := by
  obtain ⟨op, operand⟩ := d
  have enough := reached.enough
  have based := rooted.based within
  have globals := within.globals
  cases op with
  | true | false => exact twins.pushOn globals rooted _
  | constant =>
      obtain ⟨c, stored, accepts⟩ := reached.constant rfl
      rw [Machine.execute, Machine.execute, stored]
      rcases accepts with ⟨x, rfl⟩ | ⟨r, rfl⟩
      · exact twins.pushOn globals rooted _
      · exact twins.pushOn globals rooted _
  | pop =>
      obtain ⟨v, c, e, left, right, popped, -, stays⟩ :=
        twins.popThen within rooted enough fun _ m => .next m
      rw [Machine.execute, Machine.execute, left, right]
      exact ⟨popped, stays⟩
  | popN =>
      have bound : operand < depth := enough
      have height := within.height
      rw [Machine.execute, Machine.execute, dropOn, dropOn,
        if_pos (by rw [twins.height]; dsimp only; omega), if_pos (by dsimp only; omega), twins.height]
      exact ⟨twins.resize (n := b.height - operand) (by omega) (Nat.sub_le ..), rooted⟩
  | loadGlobal =>
      obtain ⟨c, stored, name, rfl⟩ := reached.constant rfl
      rw [Machine.execute, Machine.execute, nameAt?, stored]
      dsimp only
      rw [twins.global?]
      split
      · exact twins.pushOn globals rooted _
      · exact twins.raise globals _
  | assignGlobal =>
      obtain ⟨c, stored, name, rfl⟩ := reached.constant rfl
      rw [Machine.execute, Machine.execute, nameAt?, stored]
      dsimp only
      rw [twins.global?]
      split
      · obtain ⟨v, -, left, right⟩ := twins.peekThen within rooted (show 0 + 1 < depth from enough)
        rw [left, right]
        exact ⟨twins.define name v, rooted⟩
      · exact twins.raise globals _
  | defineGlobal =>
      obtain ⟨c, stored, name, rfl⟩ := reached.constant rfl
      rw [Machine.execute, Machine.execute, nameAt?, stored]
      dsimp only
      obtain ⟨v, c, e, left, right, popped, -, stays⟩ :=
        twins.popThen within rooted enough fun v m => .next (m.define name v)
      rw [left, right]
      exact ⟨popped.define name v, stays⟩
  | loadLocal =>
      rw [Machine.execute, Machine.execute, twins.get? (by dsimp only; omega)]
      dsimp only
      split
      · exact twins.pushOn globals rooted _
      · exact rfl
  | assignLocal =>
      obtain ⟨v, -, left, right⟩ := twins.peekThen within rooted (show 0 + 1 < depth from enough)
      rw [Machine.execute, Machine.execute, left, right, twins.height]
      split
      · exact ⟨twins.set (by dsimp only; omega) v, rooted⟩
      · exact rfl
  | equal =>
      obtain ⟨y, c, e, left, right, popped, lowered, stays⟩ := twins.popThen within rooted
        (Nat.lt_of_succ_lt enough) fun y m => m.popThen fun x m => m.pushOn (.bool (x.same y))
      have more : 1 < depth - 1 := Nat.lt_sub_of_add_lt enough
      obtain ⟨x, f, g, one, other, again, lower, still⟩ := popped.popThen lowered stays more
        fun x m => m.pushOn (.bool (x.same y))
      rw [Machine.execute, Machine.execute, left, right, one, other]
      exact again.pushOn lower.globals still _
  | greater | less =>
      exact twins.twoNumbers within rooted enough fun x y =>
        twins.replaceTwo within rooted enough _
  | add | subtract | multiply | divide | exponent | modulo =>
      exact twins.arithmetic within rooted enough _
  | negate =>
      obtain ⟨v, -, left, right⟩ := twins.peekThen within rooted (show 0 + 1 < depth from enough)
      have height := within.height
      rw [Machine.execute, Machine.execute, left, right, twins.height]
      have more : 1 < depth := enough
      split
      · exact ⟨twins.set (by omega) _, rooted⟩
      · exact twins.raise globals _
  | not =>
      obtain ⟨v, c, e, left, right, popped, lowered, stays⟩ := twins.popThen within rooted enough
        fun v m => m.pushOn (.bool v.falsey)
      rw [Machine.execute, Machine.execute, left, right]
      exact popped.pushOn lowered.globals stays _
  | print =>
      obtain ⟨v, c, e, left, right, popped, -, stays⟩ := twins.popThen within rooted enough
        fun v m => .next (m.write .out (v.display ++ "\n"))
      rw [Machine.execute, Machine.execute, left, right]
      exact ⟨popped.write .out _, stays⟩
  | jump => exact twins.jumpBy within rooted _
  | jumpIfFalse =>
      obtain ⟨v, -, left, right⟩ := twins.peekThen within rooted (show 0 + 1 < depth from enough)
      rw [Machine.execute, Machine.execute, left, right]
      split
      · exact twins.jumpBy within rooted _
      · exact ⟨twins, rooted⟩
  | loop => exact twins.jumpBy within rooted _
  | call =>
      obtain ⟨v, -, left, right⟩ := twins.peekThen within rooted enough
      rw [Machine.execute, Machine.execute, left, right]
      exact twins.callValue honest within rooted v enough
  | «return» => exact twins.leave within rooted enough

end Twins

section

variable {host : Host} (honest : host.Honest) {p q : Past} {a b : Machine}

include honest

theorem step_twins (twins : Twins p q a b) (orderly : b.Orderly)
    (rooted : Rooted q.below.length b.frames) :
    (a.step host).Twins p q (b.step host) := by
  obtain ⟨frame, rest, depth, within, pos, ip, flows⟩ := orderly
  obtain ⟨d, reached, stepped⟩ := within.step_eq host ip flows
  rw [stepped a twins.frames, stepped b rfl]
  rw [within.frames] at rooted
  exact (twins.fetch frame rest d.op).execute honest (within.fetch d.op) (rooted.replace rfl) reached

theorem run_twins (twins : Twins p q a b) (orderly : b.Orderly)
    (rooted : Rooted q.below.length b.frames) (fuel : Nat) :
    (a.run host fuel).Alike p q (fun _ after => after.Rests ∧ ∃ v, after.values = q.below ++ [v])
      ProperGlobals (b.run host fuel) := by
  induction fuel generalizing a b with
  | zero => trivial
  | succ fuel ih =>
      have same := step_twins honest twins orderly rooted
      have safe := step_orderly honest.serves orderly
      rw [run, run]
      generalize a.step host = left at same ⊢
      generalize b.step host = right at same safe ⊢
      cases left <;> cases right <;> try exact same.elim
      · exact ih same.1 safe same.2
      · exact ⟨rfl, same.1, safe.1, same.2⟩
      · exact same
      · exact same
      · trivial

end

end Machine

end Reckoner
