import Reckoner.Proofs.Machine.Course

/-!
Places in compiled functions. In a call the stack holds the function, its locals and the values an
expression waits for; each instruction moves the call on to another place and does to the locals and
to what is shared what an evaluation says.
-/

namespace Reckoner

open Script

/-- A directive stands at an offset of a routine, with the constant it refers to. -/
structure Routine.Has (r : Routine) (p : Nat) (d : Directive) : Prop where
  byte : r.code[p]? = some d.op.byte
  operand : r.operandAt? (p + 1) d.op.operand.width = some d.operand
  stored : d.op.operand = .constant → d.operand < r.constants.size

def Routine.Holds (r : Routine) : (p : Nat) → List Directive → Prop
  | _, [] => True
  | p, d :: rest => r.Has p d ∧ r.Holds (p + d.size) rest

theorem Routine.holds_append {r : Routine} {p : Nat} {a b : List Directive} :
    r.Holds p (a ++ b) ↔ r.Holds p a ∧ r.Holds (p + codeSize a) b := by
  induction a generalizing p with
  | nil => exact (iff_of_eq (true_and _)).symm
  | cons d rest ih =>
      rw [List.cons_append, Holds, Holds, ih, codeSize, Nat.add_assoc, and_assoc]

theorem Routine.holds_of_stands {r : Routine} {code : List Directive} {p : Nat}
    (has : ∀ q d, Stands code q d → r.Has (p + q) d) : r.Holds p code := by
  induction code generalizing p with
  | nil => trivial
  | cons d rest ih =>
      refine ⟨has 0 d (.head d rest), ih fun q e stands => ?_⟩
      rw [Nat.add_assoc]
      exact has (d.size + q) e (stands.append_left [d])

theorem Script.Carries.holds {unit : Nat} {isGlobal : Bool} {r : Routine} {f : Function}
    {marked : List Marked} (carries : Carries unit isGlobal r f marked) :
    r.Holds 0 (f.code r.constants unit isGlobal) := by
  refine Routine.holds_of_stands fun q d stands => ?_
  obtain ⟨byte, operand⟩ := carries.fetch stands
  rw [Nat.zero_add]
  exact ⟨byte, operand, (carries.fits d stands.mem).stored⟩

def Script.Environment.values (env : Environment) : List Value := (env.locals.map Prod.snd).reverse

/-- A call: its function, what lies below it on the stack, and the calls around it. -/
structure Call where
  routine : Routine
  below : List Value
  around : List Frame

namespace Call

def ground (c : Call) (env : Environment) : List Value :=
  c.below ++ .routine c.routine :: env.values

/-- The innermost call of a machine stands at an offset, with some values above its locals. -/
structure Placed (c : Call) (p : Nat) (env : Environment) (temps : List Value) (m : Machine) :
    Prop where
  frames : ∃ last, m.frames = ⟨c.routine, p, c.below.length, last⟩ :: c.around
  values : m.values = c.ground env ++ temps
  shared : m.shared = env.shared

structure At (c : Call) (p : Nat) (env : Environment) (temps : List Value) (m : Machine) : Prop
    extends c.Placed p env temps m where
  orderly : m.Orderly

theorem At.place {c : Call} {p q : Nat} {env : Environment} {temps : List Value} {m : Machine}
    (start : c.At p env temps m) (same : p = q) : c.At q env temps m := same ▸ start

/-- The call stands at an offset with one more value on its stack; it has the same locals. -/
def Yields (c : Call) (p : Nat) (names : List String) (temps : List Value) (v : Value)
    (env : Environment) (m : Machine) : Prop :=
  env.names = names ∧ c.At p env (temps ++ [v]) m

structure Inside (c : Call) (p : Nat) (env : Environment) (temps : List Value) (frame : Frame)
    (m : Machine) : Prop extends c.Placed p env temps m where
  routine : frame.routine = c.routine
  base : frame.base = c.below.length

variable {c : Call} {p q : Nat} {env after : Environment} {temps others : List Value} {v : Value}
  {m : Machine} {host : Host} {d : Directive}

theorem Placed.fetch (host : Host) (placed : c.Placed p env temps m) (has : c.routine.Has p d) :
    ∃ frame inner, m.step host = Machine.execute host inner frame d.op d.operand ∧
      c.Inside (p + d.size) env temps frame inner := by
  obtain ⟨last, frames⟩ := placed.frames
  have byte : Machine.byteAt? c.routine (p : Int) = some d.op.byte := by
    rw [Machine.byteAt?, if_neg (by omega), Int.toNat_natCast]
    exact has.byte
  have read : c.routine.operandAt? ((p : Int).toNat + 1) d.op.operand.width = some d.operand := by
    rw [Int.toNat_natCast]
    exact has.operand
  refine ⟨_, _, Machine.step_eq frames byte read, ⟨⟨p, ?_⟩, ?_, ?_⟩, rfl, rfl⟩
  · rw [Machine.fetch_frames, Frame.fetch, Directive.size]
    have place : (p : Int) + 1 + d.op.operand.width = ((p + (1 + d.op.operand.width) : Nat) : Int) := by
      omega
    rw [place]
  · rw [Machine.fetch_values]
    exact placed.values
  · rw [← placed.shared, Machine.shared, Machine.fetch_globals, Machine.fetch_written,
      Machine.fetch_world, Machine.shared]

section

variable (serves : host.Serves) (start : c.At p env temps m) (has : c.routine.Has p d)

include serves start has

theorem At.steps
    (moves : ∀ frame inner, c.Inside (p + d.size) env temps frame inner →
      ∃ last, Machine.execute host inner frame d.op d.operand = .next last ∧
        c.Placed q after others last) :
    ∃ last, Machine.Steps host 1 m last ∧ c.At q after others last := by
  obtain ⟨frame, inner, stepped, inside⟩ := start.fetch host has
  obtain ⟨last, executed, placed⟩ := moves frame inner inside
  have one : Machine.Steps host 1 m last := .one (stepped.trans executed)
  exact ⟨last, one, placed, one.orderly serves start.orderly⟩

theorem At.value {least : Nat} {outcome : Outcome Value}
    (shown : ∀ frame inner, c.Inside (p + d.size) env temps frame inner →
      (Machine.execute host inner frame d.op d.operand).Shows
        (fun v after last => after.names = env.names ∧ c.Placed q after (others ++ [v]) last)
        outcome) :
    m.Tracks host least (c.Yields q env.names others) outcome := by
  obtain ⟨frame, inner, stepped, inside⟩ := start.fetch host has
  have seen := shown frame inner inside
  rw [← stepped] at seen
  exact (Machine.Tracks.of_step serves start.orderly seen).mono
    fun v after last known => ⟨known.1.1, known.1.2, known.2⟩

end

namespace Placed

theorem withStack (placed : c.Placed p env temps m) {s : Stack}
    (values : s.values = c.ground after ++ others) (shared : after.shared = env.shared) :
    c.Placed p after others (m.withStack s) :=
  ⟨placed.frames, values, placed.shared.trans shared.symm⟩

theorem pushOn (placed : c.Placed p env temps m) (v : Value) :
    (m.pushOn v).Shows
      (fun w after last => after.names = env.names ∧ c.Placed p after (temps ++ [w]) last)
      (.done v env) := by
  by_cases room : m.HasRoom
  · rw [Machine.pushOn_eq room]
    refine ⟨v, env, rfl, rfl, placed.withStack ?_ rfl⟩
    rw [Stack.values_push, ← List.append_assoc, ← placed.values]
    rfl
  · rw [Machine.pushOn_full room]
    exact .inl rfl

theorem popThen (placed : c.Placed p env (temps ++ [v]) m) (next : Value → Machine → Step) :
    ∃ lowered, m.popThen next = next v lowered ∧ c.Placed p env temps lowered := by
  have whole : m.values = (c.ground env ++ temps) ++ [v] := by rw [placed.values, List.append_assoc]
  exact ⟨_, Machine.popThen_eq whole next,
    placed.withStack (Stack.values_below whole v) rfl⟩

theorem peekThen (placed : c.Placed p env (temps ++ v :: others) m) (next : Value → Step) :
    m.peekThen others.length next = next v := by
  have whole : m.values = (c.ground env ++ temps) ++ v :: others := by
    rw [placed.values, List.append_assoc]
  exact Machine.peekThen_eq whole rfl next

theorem height (placed : c.Placed p env temps m) :
    m.height = (c.ground env).length + temps.length := by
  rw [← Machine.length_values, placed.values, List.length_append]

theorem resize (placed : c.Placed p env (temps ++ others) m) :
    c.Placed p env temps (m.withStack (m.stack.resize (m.height - others.length))) := by
  have height := placed.height
  rw [List.length_append] at height
  refine placed.withStack ?_ rfl
  have whole : m.stack.values = (c.ground env ++ temps) ++ others := by
    rw [List.append_assoc]
    exact placed.values
  have drops : m.height - others.length ≤ m.stack.height := Nat.sub_le ..
  rw [Stack.values_resize drops, whole, height,
    show (c.ground env).length + (temps.length + others.length) - others.length =
      (c.ground env ++ temps).length by rw [List.length_append]; omega, List.take_left']
  rfl

theorem twoNumbers {x y : Value} (placed : c.Placed p env (temps ++ [x, y]) m)
    (next : Decimal → Decimal → Step) :
    m.twoNumbers next =
      match y, x with
      | .number b, .number a => next a b
      | _, _ => m.raise .operandsNotNumbers := by
  have upper : c.Placed p env (temps ++ [x] ++ [y]) m := by rwa [List.append_assoc]
  rw [Machine.twoNumbers, show (0 : Nat) = ([] : List Value).length from rfl, upper.peekThen,
    show (1 : Nat) = [y].length from rfl, placed.peekThen]
  cases y <;> cases x <;> rfl

theorem raise (placed : c.Placed p env temps m) {α : Type}
    {good : α → Environment → Machine → Prop} (cause : Cause) :
    (m.raise cause).Shows good (.fault cause env.shared) := by
  refine .inr ?_
  rw [placed.shared]
  rfl

end Placed

end Call

end Reckoner
