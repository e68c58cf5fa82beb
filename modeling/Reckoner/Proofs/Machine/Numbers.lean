import Reckoner.Proofs.Compiler.Literals
import Reckoner.Proofs.Decimal.Display
import Reckoner.Proofs.Machine.Contents
import Reckoner.Proofs.Machine.Meaning

/-!
Numbers in a running machine. What holds of the numbers a run starts with, of those its natives give
and of the results of arithmetic holds of every number on the stack, in a global and among the
constants of the calls in progress, and so of what is printed.
-/

namespace Reckoner

def Value.Holds (p : Decimal → Prop) : Value → Prop
  | .number d => p d
  | .routine r => ∀ d, r.Numbers d → p d
  | _ => True

theorem holds_constant {p : Decimal → Prop} {r : Routine} (known : ∀ d, r.Numbers d → p d) {index : Nat}
    {v : Value} (found : (r.constants[index]?).bind Value.ofConstant? = some v) : v.Holds p := by
  obtain ⟨c, stored, understood⟩ := Option.bind_eq_some_iff.mp found
  have member := Array.mem_of_getElem? stored
  cases c with
  | foreign => cases understood
  | number d =>
      rw [← Option.some.inj understood]
      exact known d (Routine.numbers_iff.mpr ⟨_, member, .inl rfl⟩)
  | routine q =>
      rw [← Option.some.inj understood]
      exact fun d numbers => known d (Routine.numbers_iff.mpr ⟨_, member, .inr ⟨q, rfl, numbers⟩⟩)
  | text | bool =>
      rw [← Option.some.inj understood]
      trivial

def Action.Gives (p : Decimal → Prop) : Action → Prop
  | .answer v => v.Holds p
  | .fail _ | .passOn _ | .crash _ => True
  | .height next => ∀ n, (next n).Gives p
  | .define _ v next | .push v next => v.Holds p ∧ next.Gives p
  | .call _ _ next => ∀ f, (next (.error f)).Gives p
  | .interpret _ next => ∀ f, (next (some f)).Gives p
  | .clock next | .random next => ∀ d, d.Regular → (next d).Gives p

/-- Natives give numbers as described for arguments with such numbers. -/
def Host.Gives (p : Decimal → Prop) (host : Host) : Prop :=
  ∀ n args, (∀ v ∈ args, v.Holds p) → (host n args).Gives p

/-- The numbers as described are closed under arithmetic, but for powers of some operands. -/
structure Decimal.Closed (p : Decimal → Prop) (exempt : Decimal → Decimal → Prop) : Prop where
  add : ∀ {a b}, p a → p b → Yields p (a.add b)
  sub : ∀ {a b}, p a → p b → Yields p (a.sub b)
  mul : ∀ {a b}, p a → p b → Yields p (a.mul b)
  quo : ∀ {a b}, p a → p b → Yields p (a.quo b)
  rem : ∀ {a b}, p a → p b → Yields p (a.rem b)
  pow : ∀ {a b}, p a → p b → ¬exempt a b → Yields p (a.pow b)
  negate : ∀ {a}, p a → p a.negate

namespace Machine

structure Holds (p : Decimal → Prop) (earlier : Array (Channel × String)) (m : Machine) : Prop where
  cells : ∀ v ∈ m.stack.cells, v.Holds p
  globals : ∀ name v, m.global? name = some v → v.Holds p
  frames : ∀ frame ∈ m.frames, ∀ d, frame.routine.Numbers d → p d
  written : ∃ printed, m.written = earlier ++ printed ∧
    ∀ entry ∈ printed, ∃ v : Value, v.Holds p ∧ entry = (.out, v.display ++ "\n")

/-- The next instruction is a power of such operands. -/
def Powers (exempt : Decimal → Decimal → Prop) (m : Machine) : Prop :=
  ∃ frame rest a b, m.frames = frame :: rest ∧
    byteAt? frame.routine frame.ip = some Operation.exponent.byte ∧
    m.peek 1 = .ok (.number a) ∧ m.peek 0 = .ok (.number b) ∧ exempt a b

end Machine

theorem Action.Gives.keeps {p : Decimal → Prop} {action : Action} (gives : action.Gives p)
    {written : Array (Channel × String)} {m : Machine} (keeps : m.Keeps (Value.Holds p) written) :
    (action.perform (fun _ _ m => .fault (m.faultOf .alreadyRunning) m)
      (fun _ m => .fault (m.faultOf .alreadyRunning) m) m).Keeps (Value.Holds p) written := by
  induction action generalizing m with
  | answer v => exact ⟨gives, keeps⟩
  | fail e | passOn f | crash reason => exact keeps
  | height next ih => exact ih m.height (gives _) keeps
  | define name v next ih => exact ih gives.2 (keeps.define gives.1 name)
  | push v next ih =>
      rw [Action.perform]
      split
      · rename_i pushed
        exact ih gives.2 (keeps.push gives.1 pushed)
      · exact ih gives.2 keeps
  | call name args next ih => exact ih _ (gives _) keeps
  | interpret r next ih => exact ih _ (gives _) keeps
  | clock next ih =>
      have regular : Decimal.Regular m.world.readClock.1 := ⟨rfl, Int.natCast_nonneg _⟩
      exact ih _ (gives _ regular) (keeps.reworld _)
  | random next ih =>
      have regular : Decimal.Regular m.world.draw.1 := ⟨rfl, Int.natCast_nonneg _⟩
      exact ih _ (gives _ regular) (keeps.reworld _)

theorem Host.Gives.keeps {p : Decimal → Prop} {host : Host} (gives : host.Gives p) :
    host.Keeps (Value.Holds p) := fun n args _ _ known keeps => (gives n args known).keeps keeps

namespace Machine

namespace Holds

variable {p : Decimal → Prop} {earlier : Array (Channel × String)} {m : Machine}

theorem keeps (holds : m.Holds p earlier) : m.Keeps (Value.Holds p) m.written :=
  ⟨⟨holds.cells, holds.globals, holds.frames⟩, rfl⟩

theorem later (holds : m.Holds p earlier) {after : Machine} {vs : List Value}
    (known : ∀ v ∈ vs, v.Holds p) (keeps : after.Keeps (Value.Holds p) (m.written ++ Value.lines vs)) :
    after.Holds p earlier := by
  obtain ⟨printed, whole, told⟩ := holds.written
  refine ⟨keeps.cells, keeps.globals, keeps.routines, printed ++ Value.lines vs, ?_, ?_⟩
  · rw [keeps.written, whole, Array.append_assoc]
  · intro entry member
    rcases Array.mem_append.mp member with old | new
    · exact told entry old
    · obtain ⟨v, inside, same⟩ := List.mem_map.mp (List.mem_toArray.mp new)
      exact ⟨v, known v inside, same.symm⟩

theorem makes {exempt : Decimal → Decimal → Prop} (closed : Decimal.Closed p exempt)
    (holds : m.Holds p earlier) (proper : ¬m.Powers exempt) {frame : Frame} {rest : List Frame}
    {op : Operation} (frames : m.frames = frame :: rest)
    (byte : byteAt? frame.routine frame.ip = some op.byte) (operand : Nat) :
    op.Makes (Value.Holds p) m.stack frame.routine operand where
  truth _ := trivial
  loaded _ v found := by
    have inProgress : frame ∈ m.frames := by
      rw [frames]
      exact List.mem_cons_self
    exact holds_constant (holds.frames frame inProgress) found
  computed := by
    intro f computes a b d left right result
    have first : p a := holds.cells _ (Stack.mem_of_peek? left)
    have second : p b := holds.cells _ (Stack.mem_of_peek? right)
    cases op with
    | add =>
        cases computes
        exact closed.add first second d result
    | subtract =>
        cases computes
        exact closed.sub first second d result
    | multiply =>
        cases computes
        exact closed.mul first second d result
    | divide =>
        cases computes
        exact closed.quo first second d result
    | modulo =>
        cases computes
        exact closed.rem first second d result
    | exponent =>
        cases computes
        refine closed.pow first second (fun raised => proper ?_) d result
        refine ⟨frame, rest, a, b, frames, byte, ?_, ?_, raised⟩
        · rw [peek, left]
        · rw [peek, right]
    | _ => cases computes
  negated _ d top := closed.negate (holds.cells _ (Stack.mem_of_peek? top))

theorem step {exempt : Decimal → Decimal → Prop} (closed : Decimal.Closed p exempt) {host : Host}
    (gives : host.Gives p) (holds : m.Holds p earlier) (proper : ¬m.Powers exempt) :
    (m.step host).machine.Holds p earlier := by
  have kept := holds.keeps.step gives.keeps fun _ _ _ operand frames byte _ =>
    holds.makes closed proper frames byte operand
  exact holds.later holds.keeps.printed kept

theorem starts (holds : m.Holds p earlier) {r : Routine} (constants : ∀ d, r.Numbers d → p d)
    {args : List Value} (known : ∀ v ∈ args, v.Holds p) {first : Machine}
    (starts : m.Starts r args first) : first.Holds p earlier := by
  have begun := holds.keeps.starts constants known starts
  have same : m.written ++ #[] = m.written := Array.append_empty
  rw [← same] at begun
  exact holds.later (List.forall_mem_nil _) begun

end Holds

/-- Some steps lead from one machine to another, and none of them takes a power of such operands. -/
inductive ReachesWithout (exempt : Decimal → Decimal → Prop) (host : Host) (first : Machine) :
    Machine → Prop where
  | here : ReachesWithout exempt host first first
  | next {m after : Machine} (reaches : ReachesWithout exempt host first m) (proper : ¬m.Powers exempt)
    (stepped : m.step host = .next after) : ReachesWithout exempt host first after

theorem Reaches.without {exempt : Decimal → Decimal → Prop} {host : Host} {first now : Machine}
    (reaches : Reaches host first now) : ReachesWithout exempt host first now ∨
      ∃ before, ReachesWithout exempt host first before ∧ before.Powers exempt := by
  induction reaches with
  | here => exact .inl .here
  | @next m after reaches stepped ih =>
      rcases ih with without | took
      · by_cases powers : m.Powers exempt
        · exact .inr ⟨m, without, powers⟩
        · exact .inl (.next without powers stepped)
      · exact .inr took

theorem Holds.reaches {p : Decimal → Prop} {earlier : Array (Channel × String)}
    {exempt : Decimal → Decimal → Prop} (closed : Decimal.Closed p exempt) {host : Host}
    (gives : host.Gives p) {first now : Machine} (holds : first.Holds p earlier)
    (reaches : ReachesWithout exempt host first now) : now.Holds p earlier := by
  induction reaches with
  | here => exact holds
  | next reaches proper stepped ih =>
      have kept := ih.step closed gives proper
      rwa [stepped] at kept

end Machine

theorem Decimal.sound_closed (natural : Prop) : Closed (Sound natural) RaisesZero where
  add := add_sound
  sub := sub_sound
  mul := mul_sound
  quo := quo_sound
  rem := rem_sound
  pow := pow_sound
  negate sound := by
    rw [Decimal.negate]
    split <;> exact sound.signed _

theorem Decimal.regular_closed : Closed Regular RaisesZero := by
  have same : Sound True = Regular := funext fun _ => propext sound_iff_regular
  exact same ▸ sound_closed True

theorem Decimal.finite_closed : Closed (fun d => d.form = .finite) RaisesZero := by
  have same : Sound False = fun d => d.form = .finite := funext fun _ => propext sound_iff_finite
  exact same ▸ sound_closed False

theorem Decimal.extended_closed : Closed Extended fun _ _ => False where
  add := add_extended
  sub := sub_extended
  mul := mul_extended
  quo := quo_extended
  rem := rem_extended
  pow first second _ := pow_extended first second
  negate extended := by
    rw [Decimal.negate]
    split <;> exact extended.imp (fun regular => ⟨regular.finite, regular.natural⟩) id

theorem Routine.Compiled.regular {r : Routine} (compiled : r.Compiled) {d : Decimal}
    (number : r.Numbers d) : d.Regular := by
  obtain ⟨unit, source, top, accepted, nested⟩ := compiled
  obtain ⟨q, deeper, member⟩ := number
  exact regular_of_accepted accepted ⟨q, nested.trans deeper, member⟩

/-- What a run of accepted code is given: a machine, arguments and natives with numbers as described. -/
structure Machine.Supplied (p : Decimal → Prop) (host : Host) (m : Machine) (r : Routine)
    (args : List Value) (first : Machine) : Prop where
  natives : host.Gives p
  machine : m.Holds p m.written
  compiled : r.Compiled
  passed : ∀ v ∈ args, v.Holds p
  starts : m.Starts r args first

theorem Machine.Supplied.holds {p : Decimal → Prop} (regular : ∀ d : Decimal, d.Regular → p d)
    {host : Host} {m first : Machine} {r : Routine} {args : List Value}
    (supplied : Supplied p host m r args first) : first.Holds p m.written :=
  supplied.machine.starts (fun d number => regular d (supplied.compiled.regular number)) supplied.passed
    supplied.starts

theorem Machine.Supplied.stays {p : Decimal → Prop} (closed : Decimal.Closed p Decimal.RaisesZero)
    (regular : ∀ d : Decimal, d.Regular → p d) {host : Host} {m first now : Machine} {r : Routine}
    {args : List Value} (supplied : Supplied p host m r args first)
    (reaches : ReachesWithout Decimal.RaisesZero host first now) :
    now.Holds p m.written ∧
      (now.Powers Decimal.RaisesZero ∨ (now.step host).machine.Holds p m.written) := by
  have holds := (supplied.holds regular).reaches closed supplied.natives reaches
  refine ⟨holds, ?_⟩
  by_cases powers : now.Powers Decimal.RaisesZero
  · exact .inl powers
  · exact .inr (holds.step closed supplied.natives powers)

/-- Arithmetic on finite numbers fails or gives a finite number, but for a zero raised to a power below
zero, which gives an infinity. A run of accepted code that is given finite numbers only holds and prints
finite ones until it takes such a power. The same goes for regular numbers, which have a plain display.
A run that may have infinities has nothing but these and regular numbers. -/
theorem numbers_stay_regular (host : Host) :
    Decimal.Closed (fun d => d.form = .finite) Decimal.RaisesZero ∧
    (∀ a b : Decimal, b.form = .finite → Decimal.RaisesZero a b →
      ∃ negative, a.pow b = .ok (.infinity negative)) ∧
    (∀ m r args first now, Machine.Supplied (fun d => d.form = .finite) host m r args first →
      Machine.ReachesWithout Decimal.RaisesZero host first now →
        now.Holds (fun d => d.form = .finite) m.written ∧
        (now.Powers Decimal.RaisesZero ∨
          (now.step host).machine.Holds (fun d => d.form = .finite) m.written)) ∧
    (∀ m r args first now, Machine.Supplied Decimal.Regular host m r args first →
      Machine.ReachesWithout Decimal.RaisesZero host first now →
        now.Holds Decimal.Regular m.written ∧
        (now.Powers Decimal.RaisesZero ∨ (now.step host).machine.Holds Decimal.Regular m.written)) ∧
    (∀ d : Decimal, d.Regular → ∃ negative whole fraction, Canonical negative whole fraction ∧
      d.display = String.ofList (Decimal.signed negative (Decimal.spelled whole fraction))) ∧
    ∀ m r args first now, Machine.Supplied Decimal.Extended host m r args first →
      Machine.Reaches host first now → now.Holds Decimal.Extended m.written := by
  refine ⟨Decimal.finite_closed, fun a b finite => ?_, ?_, ?_, ?_, ?_⟩
  · exact Decimal.pow_raisesZero (Decimal.sound_iff_finite.mpr finite).isNaN
  · intro m r args first now supplied reaches
    exact supplied.stays Decimal.finite_closed (fun _ regular => regular.finite) reaches
  · intro m r args first now supplied reaches
    exact supplied.stays Decimal.regular_closed (fun _ => id) reaches
  · intro d regular
    obtain ⟨negative, whole, fraction, spelling⟩ := regular.spelling
    exact ⟨negative, whole, fraction, spelling.canonical, congrArg String.ofList spelling.text⟩
  · intro m r args first now supplied reaches
    have start := supplied.holds fun _ => .inl
    rcases reaches.without with without | ⟨before, -, powers⟩
    · exact start.reaches Decimal.extended_closed supplied.natives without
    · obtain ⟨_, _, _, _, _, _, _, _, impossible⟩ := powers
      exact impossible.elim

theorem Host.standard_gives {p : Decimal → Prop} (regular : ∀ d : Decimal, d.Regular → p d) :
    Host.standard.Gives p := by
  intro n args known
  rw [Host.standard]
  split
  · exact regular
  · exact regular
  · trivial

theorem Machine.new_holds (p : Decimal → Prop) (maxFrames : Int) (world : World) :
    (Machine.new maxFrames world).Holds p #[] where
  cells := nofun
  globals := by
    intro name v found
    obtain ⟨n, -, rfl⟩ := Machine.new_global found
    trivial
  frames := nofun
  written := ⟨#[], rfl, nofun⟩

theorem numbers_stay_regular_quotient :
    let m := Machine.new 0 ⟨0, 0⟩
    ∃ r first, compile 0 "print 1 / 8;" = .ok r ∧ m.Starts r [] first ∧
      first.Holds Decimal.Regular #[] ∧ (first.step Host.standard).machine.Holds Decimal.Regular #[] := by
  intro m
  have known : ((compile 0 "print 1 / 8;").toOption.any fun r => r.arity == 0) = true := by
    with_unfolding_all rfl
  cases compiled : compile 0 "print 1 / 8;" with
  | error ds =>
      rw [compiled] at known
      cases known
  | ok r =>
      rw [compiled] at known
      have arity : r.arity = 0 := eq_of_beq known
      let first : Machine := { m with
        stack := { live := #[.routine r], above := [] }
        frames := [{ routine := r, ip := 0, base := 0, last := 0 }] }
      have starts : m.Starts r [] first := by
        refine ⟨_, rfl, ?_⟩
        rw [Machine.enter, if_neg (by rw [arity]; exact fun differ => differ rfl)]
        rfl
      have supplied : Machine.Supplied Decimal.Regular Host.standard m r [] first := {
        natives := Host.standard_gives fun _ => id
        machine := Machine.new_holds Decimal.Regular 0 ⟨0, 0⟩
        compiled := ⟨0, _, r, .inl compiled, .self⟩
        passed := List.forall_mem_nil _
        starts := starts }
      obtain ⟨holds, powers | later⟩ :=
        (numbers_stay_regular Host.standard).2.2.2.1 m r [] first first supplied .here
      · obtain ⟨_, _, _, _, _, _, _, top, _⟩ := powers
        have routine : first.peek 0 = .ok (.routine r) := rfl
        rw [routine] at top
        cases top
      · exact ⟨r, first, rfl, starts, holds, later⟩

/-- A zero raised to a power below zero is an infinity, which a script can print. -/
theorem infinity_printed :
    (∃ a b : Decimal, a.form = .finite ∧ b.form = .finite ∧ a.pow b = .ok (.infinity false)) ∧
    ∃ r after, compile 0 "print 0 ** -1;" = .ok r ∧
      (Machine.new 0 ⟨0, 0⟩).interpret Host.standard 100 r = .done () after ∧
      after.textOn .out = "Infinity\n" := by
  constructor
  · exact ⟨.ofInt 0, .ofInt (-1), rfl, rfl, by decide⟩
  · obtain ⟨r, after, compiled, done, output⟩ := exists_done (show
      ((compile 0 "print 0 ** -1;").toOption.any fun r =>
        ((Machine.new 0 ⟨0, 0⟩).interpret Host.standard 100 r).passes fun after =>
          after.textOn .out == "Infinity\n") = true by decide +kernel)
    exact ⟨r, after, compiled, done, eq_of_beq output⟩

end Reckoner
