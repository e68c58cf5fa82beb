import Reckoner.Proofs.Machine.Placement

/-!
What the instructions of compiled functions do, said as evaluations: variables, operators, jumps and
the locals of a scope.
-/

namespace Reckoner

open Script

namespace Script.Environment

variable {env : Environment} {name : String} {v : Value}

theorem length_values (env : Environment) : env.values.length = env.locals.length := by
  rw [values, List.length_reverse, List.length_map]

theorem length_names (env : Environment) : env.names.length = env.locals.length := List.length_map ..

theorem values_cons (x : String × Value) (locals : List (String × Value)) (shared : Shared) :
    values ⟨x :: locals, shared⟩ = values ⟨locals, shared⟩ ++ [x.2] := by
  rw [values, List.map_cons, List.reverse_cons]
  rfl

theorem lookup_none (missing : slotOf name env.names = none) : env.locals.lookup name = none := by
  obtain ⟨locals, shared⟩ := env
  induction locals with
  | nil => rfl
  | cons x rest ih =>
      simp only [names, List.map_cons, slotOf] at missing ih
      split at missing
      · cases missing
      · rename_i other
        rw [List.lookup_cons, beq_eq_false_iff_ne.mpr fun same => other (beq_iff_eq.mpr same.symm)]
        exact ih missing

theorem slot_eq {slot : Nat} (found : slotOf name env.names = some slot) :
    ∃ k, slot = k + 1 ∧ k < env.values.length ∧ env.locals.lookup name = env.values[k]? ∧
      ∀ v, values { env with locals := replace name v env.locals } = env.values.set k v := by
  obtain ⟨locals, shared⟩ := env
  induction locals with
  | nil => exact absurd found nofun
  | cons x rest ih =>
      simp only [names, List.map_cons, slotOf] at found ih
      have lengths : (values ⟨rest, shared⟩).length = rest.length := length_values ⟨rest, shared⟩
      split at found
      · rename_i same
        obtain rfl := eq_of_beq same
        refine ⟨rest.length, ?_, ?_, ?_, fun v => ?_⟩
        · rw [← Option.some.inj found, List.length_map]
        · rw [length_values]
          exact Nat.lt_succ_self _
        · rw [List.lookup_cons, beq_self_eq_true, values_cons, List.getElem?_append_right
            (Nat.le_of_eq lengths), lengths, Nat.sub_self]
          rfl
        · rw [replace, if_pos (beq_self_eq_true _), values_cons, values_cons,
            List.set_append_right _ _ (Nat.le_of_eq lengths), lengths, Nat.sub_self]
          rfl
      · rename_i other
        obtain ⟨k, rfl, bound, here, set⟩ := ih found
        refine ⟨k, rfl, ?_, ?_, fun v => ?_⟩
        · rw [values_cons, List.length_append]
          omega
        · rw [List.lookup_cons, beq_eq_false_iff_ne.mpr fun same => other (beq_iff_eq.mpr same.symm),
            values_cons, List.getElem?_append_left bound]
          exact here
        · rw [replace, if_neg other, values_cons, values_cons, List.set_append_left _ _ bound]
          exact congrArg (· ++ [x.2]) (set v)

theorem map_fst_replace (name : String) (v : Value) (locals : List (String × Value)) :
    (replace name v locals).map Prod.fst = locals.map Prod.fst := by
  induction locals with
  | nil => rfl
  | cons x rest ih =>
      rw [replace]
      split
      · rfl
      · rw [List.map_cons, ih, List.map_cons]

theorem values_keep (env : Environment) (count : Nat) :
    ∃ dropped, env.values = (env.keep count).values ++ dropped ∧
      dropped.length = env.locals.length - count := by
  refine ⟨((env.locals.take (env.locals.length - count)).map Prod.snd).reverse, ?_, ?_⟩
  · rw [values, values, keep, ← List.reverse_append, ← List.map_append, List.take_append_drop]
  · rw [List.length_reverse, List.length_map, List.length_take]
    omega

theorem names_keep {outer inner : List String} (whole : env.names = inner ++ outer) :
    (env.keep outer.length).names = outer := by
  have lengths := congrArg List.length whole
  rw [length_names, List.length_append] at lengths
  rw [names, keep, List.map_drop, show env.locals.map Prod.fst = inner ++ outer from whole,
    List.drop_left' (by omega)]

theorem keep_keep (env : Environment) {outer inner : Nat} (less : outer ≤ inner) :
    (env.keep inner).keep outer = env.keep outer := by
  rw [keep, keep, keep]
  simp only [List.length_drop, List.drop_drop]
  congr 2
  omega

theorem keep_all (env : Environment) : env.keep env.names.length = env := by
  rw [length_names, keep, Nat.sub_self]
  rfl

end Script.Environment

namespace Call

variable {c : Call} {p n : Nat} {env : Environment} {temps : List Value} {v : Value} {m : Machine}
  {host : Host} {least : Nat}

namespace Placed

theorem lower (placed : c.Placed p env [] m) (count : Nat) :
    ∃ dropped, dropped.length = env.locals.length - count ∧
      c.Placed p (env.keep count) dropped m := by
  obtain ⟨dropped, values, length⟩ := env.values_keep count
  refine ⟨dropped, length, placed.frames, ?_, placed.shared⟩
  rw [placed.values, ground, ground, values, List.append_nil]
  simp

theorem declare (placed : c.Placed p env [v] m) (name : String) :
    c.Placed p { env with locals := (name, v) :: env.locals } [] m := by
  refine ⟨placed.frames, ?_, placed.shared⟩
  rw [placed.values, ground, ground, Environment.values_cons, List.append_nil]
  simp

theorem jumpBy (placed : c.Placed p env temps m) {distance : Int} {q : Nat}
    (place : (p : Int) + distance = q) : c.Placed q env temps (m.jumpBy distance) := by
  obtain ⟨last, frames⟩ := placed.frames
  rw [Machine.jumpBy, frames]
  refine ⟨⟨last, ?_⟩, placed.values, placed.shared⟩
  rw [← place]

end Placed

variable (serves : host.Serves)

include serves

/-! Jumps and pops -/

theorem At.pop (start : c.At p env (temps ++ [v]) m) (has : c.routine.Has p ⟨.pop, 0⟩) :
    ∃ last, Machine.Steps host 1 m last ∧ c.At (p + 1) env temps last := by
  refine start.steps serves has fun frame inner inside => ?_
  obtain ⟨lowered, popped, placed⟩ := inside.popThen fun _ m => .next m
  exact ⟨lowered, popped, placed⟩

theorem At.drop (start : c.At p env [v] m) (has : c.routine.Has p ⟨.pop, 0⟩) :
    ∃ last, Machine.Steps host 1 m last ∧ c.At (p + 1) env [] last :=
  At.pop serves (show c.At p env ([] ++ [v]) m from start) has

theorem At.jump (start : c.At p env temps m) (has : c.routine.Has p ⟨.jump, n⟩) :
    ∃ last, Machine.Steps host 1 m last ∧ c.At (p + 3 + n) env temps last :=
  start.steps serves has fun _ inner inside => ⟨_, rfl, inside.jumpBy (by push_cast; rfl)⟩

theorem At.loopBack {target : Nat} (start : c.At p env temps m)
    (has : c.routine.Has p (loopBack p target)) (before : target ≤ p + 3) :
    ∃ last, Machine.Steps host 1 m last ∧ c.At target env temps last := by
  refine start.steps serves has fun _ inner inside => ⟨_, rfl, inside.jumpBy ?_⟩
  show ((p + 3 : Nat) : Int) + -((p + 3 - target : Nat) : Int) = target
  omega

theorem At.branch (start : c.At p env (temps ++ [v]) m) (has : c.routine.Has p ⟨.jumpIfFalse, n⟩) :
    ∃ last, Machine.Steps host 1 m last ∧
      c.At (if v.truthy then p + 3 else p + 3 + n) env (temps ++ [v]) last := by
  refine start.steps serves has fun frame inner inside => ?_
  have peeked : ∀ next, inner.peekThen 0 next = next v := inside.peekThen
  rw [Machine.execute, peeked]
  refine ⟨_, rfl, ?_⟩
  cases truth : v.truthy with
  | true =>
      rw [Value.falsey, truth]
      exact inside.toPlaced
  | false =>
      rw [Value.falsey, truth]
      exact inside.jumpBy (by push_cast; rfl)

theorem At.pops (start : c.At p env [] m) {count : Nat}
    (holds : c.routine.Holds p (popCode (env.names.length - count))) :
    ∃ steps last, Machine.Steps host steps m last ∧
      c.At (p + codeSize (popCode (env.names.length - count))) (env.keep count) [] last := by
  obtain ⟨dropped, length, lowered⟩ := start.lower count
  rw [← env.length_names] at length
  have view : c.At p (env.keep count) dropped m := ⟨lowered, start.orderly⟩
  generalize env.names.length - count = n at holds length ⊢
  match n with
  | 0 =>
      obtain rfl := List.eq_nil_of_length_eq_zero length
      exact ⟨0, m, .none, view⟩
  | 1 =>
      obtain ⟨v, rfl⟩ := List.length_eq_one_iff.mp length
      obtain ⟨last, steps, here⟩ := view.drop serves holds.1
      exact ⟨1, last, steps, here⟩
  | n + 2 =>
      obtain ⟨last, steps, here⟩ : ∃ last, Machine.Steps host 1 m last ∧
          c.At (p + 2) (env.keep count) [] last := by
        refine view.steps serves holds.1 fun frame inner inside => ?_
        have height := inside.height
        have waiting : c.Placed (p + 2) (env.keep count) ([] ++ dropped) inner := inside.toPlaced
        rw [Machine.execute, Machine.dropOn, if_pos (by dsimp only; omega), ← length]
        exact ⟨_, rfl, waiting.resize⟩
      exact ⟨1, last, steps, here⟩

/-! Operators -/

theorem At.negated (start : c.At p env (temps ++ [v]) m) (has : c.routine.Has p ⟨.not, 0⟩) :
    m.Tracks host least (c.Yields (p + 1) env.names temps) (.done (.bool v.falsey) env) := by
  refine start.value serves has fun frame inner inside => ?_
  obtain ⟨lowered, popped, placed⟩ := inside.popThen fun v m => m.pushOn (.bool v.falsey)
  rw [Machine.execute, popped]
  exact placed.pushOn _

theorem At.negative (start : c.At p env (temps ++ [v]) m) (has : c.routine.Has p ⟨.negate, 0⟩) :
    m.Tracks host least (c.Yields (p + 1) env.names temps) (attempt (negative v) env) := by
  refine start.value serves has fun frame inner inside => ?_
  have peeked : ∀ next, inner.peekThen 0 next = next v := inside.peekThen
  rw [Machine.execute, peeked]
  cases v with
  | number d =>
      refine ⟨_, env, rfl, rfl, inside.withStack ?_ rfl⟩
      have height := inside.height
      have place : inner.height - 1 = (c.ground env ++ temps).length := by
        rw [height, List.length_append, List.length_append]
        rfl
      have whole : inner.stack.values = (c.ground env ++ temps) ++ [.number d] := by
        rw [List.append_assoc]
        exact inside.values
      rw [Stack.values_set, place, whole, List.set_append_right _ _ (Nat.le_refl _), Nat.sub_self,
        List.append_assoc]
      rfl
  | _ => exact inside.raise _

namespace Placed

omit serves

variable {x y : Value} (placed : c.Placed p env (temps ++ [x, y]) m)

include placed

theorem replaceTwo (v : Value) :
    (m.replaceTwo v).Shows
      (fun w after last => after.names = env.names ∧ c.Placed p after (temps ++ [w]) last)
      (.done v env) := placed.resize.pushOn v

theorem arithmetic (f : Decimal → Decimal → Except ArithmeticError Decimal) :
    (m.arithmetic f).Shows
      (fun w after last => after.names = env.names ∧ c.Placed p after (temps ++ [w]) last)
      (attempt (Script.arithmetic f x y) env) := by
  rw [Machine.arithmetic, placed.twoNumbers]
  cases x <;> cases y <;> try exact placed.raise _
  rename_i a b
  simp only [Script.arithmetic, onNumbers]
  cases f a b with
  | ok d => exact placed.replaceTwo _
  | error e => exact placed.raise _

theorem comparison (holds : Ordering → Bool) :
    (m.twoNumbers fun a b => m.replaceTwo (.bool (holds (a.compare b)))).Shows
      (fun w after last => after.names = env.names ∧ c.Placed p after (temps ++ [w]) last)
      (attempt (Script.comparison holds x y) env) := by
  rw [placed.twoNumbers]
  cases x <;> cases y <;> try exact placed.raise _
  exact placed.replaceTwo _

end Placed

theorem At.plain {x y : Value} {op : Operator} {operation : Operation}
    (start : c.At p env (temps ++ [x, y]) m) (single : op.operations = [operation])
    (holds : c.routine.Holds p op.code) :
    m.Tracks host least (c.Yields (p + 1) env.names temps) (attempt (op.apply x y) env) := by
  have above : (fun o : Ordering => o == .gt) = Ordering.isGT := by funext o; cases o <;> rfl
  have below : (fun o : Ordering => o == .lt) = Ordering.isLT := by funext o; cases o <;> rfl
  rw [Operator.code, single] at holds
  cases op <;> obtain rfl := List.cons.inj single |>.1 <;>
    refine start.value serves holds.1 fun frame inner inside => ?_
  case notEqual | greaterEqual | lessEqual => exact absurd single (by decide)
  case add | subtract | multiply | divide | power | modulo => exact inside.arithmetic _
  case greater =>
    have shown := inside.comparison (· == .gt)
    rw [above] at shown
    exact shown
  case less =>
    have shown := inside.comparison (· == .lt)
    rw [below] at shown
    exact shown
  case equal =>
    have upper : c.Placed (p + 1) env (temps ++ [x] ++ [y]) inner := by
      rw [List.append_assoc]
      exact inside.toPlaced
    obtain ⟨one, first, lowered⟩ := upper.popThen
      fun b m => m.popThen fun a m => m.pushOn (.bool (a.same b))
    obtain ⟨two, second, lower⟩ := lowered.popThen fun a m => m.pushOn (.bool (a.same y))
    rw [Machine.execute, first, second]
    exact lower.pushOn _

theorem At.opposite {x y : Value} {op : Operator} {operation : Operation} (other : Operator)
    (start : c.At p env (temps ++ [x, y]) m) (single : other.operations = [operation])
    (double : op.operations = [operation, .not]) (holds : c.routine.Holds p op.code)
    (same : attempt (op.apply x y) env =
      (attempt (other.apply x y) env).andThen fun v after => .done (.bool v.falsey) after) :
    m.Tracks host least (c.Yields (p + 2) env.names temps) (attempt (op.apply x y) env) := by
  rw [Operator.code, double] at holds
  have one : operation.operand = .none := by
    cases other <;> obtain rfl := List.cons.inj single |>.1 <;> rfl
  have size : Directive.size ⟨operation, 0⟩ = 1 := by rw [Directive.size, one]; rfl
  have first : c.routine.Holds p other.code := by
    rw [Operator.code, single]
    exact ⟨holds.1, trivial⟩
  have second := holds.2.1
  rw [size] at second
  rw [same]
  refine (start.plain serves single first).andThen fun v after last known => ?_
  obtain ⟨names, here⟩ := known
  rw [← names]
  exact here.negated serves second

theorem At.operator {x y : Value} (op : Operator) (start : c.At p env (temps ++ [x, y]) m)
    (holds : c.routine.Holds p op.code) :
    m.Tracks host least (c.Yields (p + codeSize op.code) env.names temps)
      (attempt (op.apply x y) env) := by
  cases op with
  | notEqual => exact start.opposite serves .equal rfl rfl holds rfl
  | greaterEqual =>
      refine start.opposite serves .less rfl rfl holds ?_
      cases x <;> cases y <;> try rfl
      rename_i a b
      simp only [Operator.apply, comparison, onNumbers, attempt]
      cases a.compare b <;> rfl
  | lessEqual =>
      refine start.opposite serves .greater rfl rfl holds ?_
      cases x <;> cases y <;> try rfl
      rename_i a b
      simp only [Operator.apply, comparison, onNumbers, attempt]
      cases a.compare b <;> rfl
  | _ => exact start.plain serves rfl holds

/-! Variables -/

theorem At.load {scope : List String} {name : String} (start : c.At p env temps m)
    (names : env.names = scope) (has : c.routine.Has p (loadOf c.routine.constants scope name)) :
    m.Tracks host least
      (c.Yields (p + (loadOf c.routine.constants scope name).size) scope temps)
      (readName name env) := by
  subst names
  cases found : slotOf name env.names with
  | some slot =>
      simp only [loadOf, found] at has ⊢
      obtain ⟨k, rfl, bound, here, -⟩ := Environment.slot_eq found
      refine start.value serves has fun frame inner inside => ?_
      have there : inner.stack.get? (frame.base + (k + 1)) = env.values[k]? := by
        rw [Stack.get?_eq, show inner.stack.values = _ from inside.values, inside.base, ground,
          List.append_assoc, List.getElem?_append_right (by omega),
          show c.below.length + (k + 1) - c.below.length = k + 1 by omega, List.cons_append,
          List.getElem?_cons_succ, List.getElem?_append_left bound]
      simp only [Machine.execute]
      simp only [there, readName, here, List.getElem?_eq_getElem bound]
      exact inside.pushOn _
  | none =>
      simp only [loadOf, found] at has ⊢
      refine start.value serves has fun frame inner inside => ?_
      have globals : inner.globals = env.shared.globals := congrArg Shared.globals inside.shared
      simp only [Machine.execute, Machine.nameAt?, inside.routine, Pool.find_text (has.stored rfl),
        readName, Environment.lookup_none found, Machine.global?, globals]
      cases env.shared.globals[name]? with
      | some v => exact inside.pushOn v
      | none => exact inside.raise _

theorem At.store {scope : List String} {name : String} (start : c.At p env (temps ++ [v]) m)
    (names : env.names = scope) (has : c.routine.Has p (storeOf c.routine.constants scope name)) :
    m.Tracks host least
      (c.Yields (p + (storeOf c.routine.constants scope name).size) scope temps)
      (assign name v env) := by
  subst names
  cases found : slotOf name env.names with
  | some slot =>
      simp only [storeOf, found] at has ⊢
      obtain ⟨k, rfl, bound, here, set⟩ := Environment.slot_eq found
      refine start.value serves has fun frame inner inside => ?_
      have peeked : ∀ next, inner.peekThen 0 next = next v := inside.peekThen
      have height : inner.height = c.below.length + (env.values.length + 1) + (temps.length + 1) := by
        rw [inside.height, ground, List.length_append, List.length_append]
        rfl
      rw [Machine.execute, peeked, if_pos (by rw [inside.base, height]; dsimp only; omega)]
      rw [assign, here, List.getElem?_eq_getElem bound]
      refine ⟨v, _, rfl, Environment.map_fst_replace .., inside.withStack ?_ rfl⟩
      rw [Stack.values_set, show inner.stack.values = _ from inside.values, inside.base, ground,
        ground, set, List.append_assoc, List.append_assoc, List.set_append_right _ _ (by omega),
        show c.below.length + (k + 1) - c.below.length = k + 1 by omega, List.cons_append,
        List.set_cons_succ, List.set_append_left _ _ bound]
      rfl
  | none =>
      simp only [storeOf, found] at has ⊢
      refine start.value serves has fun frame inner inside => ?_
      have peeked : ∀ next, inner.peekThen 0 next = next v := inside.peekThen
      have globals : inner.globals = env.shared.globals := congrArg Shared.globals inside.shared
      simp only [Machine.execute, Machine.nameAt?, inside.routine, Pool.find_text (has.stored rfl),
        assign, Environment.lookup_none found, Machine.global?, globals]
      cases env.shared.globals[name]? with
      | some old =>
          simp only [peeked]
          refine ⟨v, _, rfl, rfl, inside.frames, inside.values, ?_⟩
          rw [Shared.define, ← inside.shared]
          rfl
      | none => exact inside.raise _

def Passes (c : Call) (p : Nat) (names : List String) (env : Environment) (m : Machine) : Prop :=
  env.names = names ∧ c.At p env [] m

theorem At.shown (start : c.At p env [v] m) (has : c.routine.Has p ⟨.print, 0⟩) :
    m.Tracks host least (fun _ => c.Passes (p + 1) env.names) (display v env) := by
  obtain ⟨last, steps, here⟩ : ∃ last, Machine.Steps host 1 m last ∧ c.At (p + 1)
      { env with shared := { env.shared with
        written := env.shared.written.push (.out, v.display ++ "\n") } } [] last := by
    refine start.steps serves has fun frame inner inside => ?_
    have waiting : c.Placed (p + 1) env ([] ++ [v]) inner := inside.toPlaced
    obtain ⟨lowered, popped, placed⟩ :=
      waiting.popThen fun v m => .next (m.write .out (v.display ++ "\n"))
    refine ⟨_, popped, placed.frames, placed.values, ?_⟩
    rw [← placed.shared]
    rfl
  exact .inr ⟨1, last, steps, rfl, here⟩

theorem At.declared {isGlobal : Bool} {name : String} (start : c.At p env [v] m)
    (holds : c.routine.Holds p (defineCode c.routine.constants isGlobal name)) :
    m.Tracks host least
      (fun _ => c.Passes (p + codeSize (defineCode c.routine.constants isGlobal name))
        ((if isGlobal then [] else [name]) ++ env.names))
      (declare isGlobal name v env) := by
  cases isGlobal with
  | false => exact .inr ⟨0, m, .none, rfl, start.declare name, start.orderly⟩
  | true =>
      have has : c.routine.Has p ⟨.defineGlobal, _⟩ := holds.1
      obtain ⟨last, steps, here⟩ : ∃ last, Machine.Steps host 1 m last ∧
          c.At (p + 2) { env with shared := Shared.define env.shared name v } [] last := by
        refine start.steps serves has fun frame inner inside => ?_
        simp only [Machine.execute, Machine.nameAt?, inside.routine, Pool.find_text (has.stored rfl)]
        have waiting : c.Placed (p + 2) env ([] ++ [v]) inner := inside.toPlaced
        obtain ⟨lowered, popped, placed⟩ := waiting.popThen fun v m => .next (m.define name v)
        refine ⟨_, popped, placed.frames, placed.values, ?_⟩
        rw [Shared.define, ← placed.shared]
        rfl
      exact .inr ⟨1, last, steps, rfl, here⟩

/-! Constants -/

theorem At.truth {b : Bool} (start : c.At p env temps m)
    (has : c.routine.Has p { op := if b then .true else .false }) :
    m.Tracks host least (c.Yields (p + 1) env.names temps) (.done (.bool b) env) := by
  cases b with
  | true => exact start.value serves has fun frame inner inside => inside.pushOn _
  | false => exact start.value serves has fun frame inner inside => inside.pushOn _

theorem At.constant {entry : Constant} (start : c.At p env temps m)
    (has : c.routine.Has p ⟨.constant, n⟩) (stored : c.routine.constants[n]? = some entry)
    (known : Value.ofConstant? entry = some v) :
    m.Tracks host least (c.Yields (p + 2) env.names temps) (.done v env) := by
  refine start.value serves has fun frame inner inside => ?_
  simp only [Machine.execute, inside.routine, stored, Option.bind_some, known]
  exact inside.pushOn v

end Call

end Reckoner
