import Reckoner.Decimal.Power

/-!
Regular numbers: finite, with digits that are a natural number apart from the sign. The operations of
scripts give regular numbers for regular ones or fail. One of them answers with an infinity, that of a
zero raised to a power below zero.
-/

namespace Reckoner.Decimal

/-- A finite number whose digits are a natural number, apart from the sign. -/
structure Regular (d : Decimal) : Prop where
  finite : d.form = .finite
  natural : 0 ≤ d.coefficient

theorem withinLimit_iff (e : Int) : withinLimit e = true ↔ -100000 ≤ e ∧ e ≤ 100000 := by
  rw [withinLimit, Bool.and_eq_true, decide_eq_true_iff, decide_eq_true_iff]
  rfl

structure Sound (natural : Prop) (d : Decimal) : Prop where
  finite : d.form = .finite
  digits : natural → 0 ≤ d.coefficient

theorem sound_iff_regular {d : Decimal} : d.Sound True ↔ d.Regular :=
  ⟨fun sound => ⟨sound.finite, sound.digits trivial⟩,
    fun regular => ⟨regular.finite, fun _ => regular.natural⟩⟩

theorem Regular.sound {d : Decimal} (regular : d.Regular) : d.Sound True := sound_iff_regular.mpr regular

theorem sound_iff_finite {d : Decimal} : d.Sound False ↔ d.form = .finite :=
  ⟨Sound.finite, fun finite => ⟨finite, False.elim⟩⟩

def Yields (holds : Decimal → Prop) (outcome : Except ArithmeticError Decimal) : Prop :=
  ∀ d, outcome = .ok d → holds d

section

variable {p : Decimal → Prop}

theorem Yields.ok {d : Decimal} (known : p d) : Yields p (.ok d) := fun _ same =>
  Except.ok.inj same ▸ known

theorem Yields.error (e : ArithmeticError) : Yields p (.error e) := nofun

theorem Yields.bind {outcome : Except ArithmeticError Decimal}
    {next : Decimal → Except ArithmeticError Decimal} (first : Yields p outcome)
    (follows : ∀ d, p d → Yields p (next d)) : Yields p (outcome >>= next) := by
  cases outcome with
  | error e => exact .error e
  | ok d => exact follows d (first d rfl)

theorem Yields.ite {c : Prop} [Decidable c] {x y : Except ArithmeticError Decimal}
    (first : Yields p x) (second : Yields p y) : Yields p (if c then x else y) := by
  split
  · exact first
  · exact second

end

section Closure

variable {natural : Prop} {a b d : Decimal}

theorem Sound.finite_number {negative : Bool} {coefficient : Nat} {exponent : Int} :
    Sound natural { negative, coefficient, exponent } := ⟨rfl, fun _ => Int.natCast_nonneg _⟩

theorem Sound.ofInt (n : Int) : Sound natural (ofInt n) := .finite_number

theorem Sound.one : Sound natural one := .finite_number

theorem Sound.zeroed {negative : Bool} {exponent : Int} : Sound natural { negative, exponent } :=
  ⟨rfl, fun _ => Int.le_refl 0⟩

theorem Sound.signed (sound : d.Sound natural) (negative : Bool) :
    Sound natural { d with negative } := ⟨sound.finite, sound.digits⟩

theorem Sound.moved (sound : d.Sound natural) (exponent : Int) :
    Sound natural { d with exponent } := ⟨sound.finite, sound.digits⟩

theorem place_sound (sound : d.Sound natural) (parts : List Int) :
    Yields (Sound natural) (d.place parts) := .ite (.ok (sound.moved _)) (.error _)

theorem shorten_nonneg (tie : Tie) {n : Int} (positive : 0 ≤ n) (d : Nat) : 0 ≤ tie.shorten n d := by
  rw [Tie.shorten, if_neg (Int.not_lt.mpr positive)]
  exact Int.natCast_nonneg _

theorem dropDigits_nonneg (tie : Tie) (digits : Nat) {n : Int} (positive : 0 ≤ n) (excess : Nat) :
    0 ≤ (dropDigits tie digits n excess).1 := by
  have kept := shorten_nonneg tie positive (Nat.pow 10 excess)
  simp only [dropDigits]
  split
  · exact Int.tdiv_nonneg kept (by decide)
  · exact kept

theorem round_sound (r : Rounding) (sound : d.Sound natural) : Yields (Sound natural) (d.round r) := by
  simp only [round]
  refine .ite (.error _) (.ite (place_sound sound _) (.ite (.error _) (place_sound ?_ _)))
  exact ⟨sound.finite, fun asked => dropDigits_nonneg _ _ (sound.digits asked) _⟩

theorem align_nonneg (first : 0 ≤ a.coefficient) (second : 0 ≤ b.coefficient) :
    0 ≤ (a.align b).1 ∧ 0 ≤ (a.align b).2.1 := by
  have scaled : ∀ {n : Int} (k : Nat), 0 ≤ n → 0 ≤ n * (Nat.pow 10 k : Nat) :=
    fun k positive => Int.mul_nonneg positive (Int.natCast_nonneg _)
  rw [align]
  split
  · exact ⟨first, scaled _ second⟩
  · exact ⟨scaled _ first, second⟩

theorem addSigned_nonneg (xNegative yNegative : Bool) {x y : Int} (first : 0 ≤ x) (second : 0 ≤ y) :
    0 ≤ (addSigned xNegative x yNegative y).2 := by
  rw [addSigned]
  split
  · exact Int.add_nonneg first second
  · split
    · exact Int.le_refl 0
    · split
      · dsimp only
        omega
      · dsimp only
        omega

theorem addFinite_sound (r : Rounding) (first : a.Sound natural) (second : b.Sound natural) :
    Yields (Sound natural) (addFinite r a b) := by
  rw [addFinite]
  refine .ite (.error _) (round_sound r ⟨rfl, fun asked => ?_⟩)
  have aligned := align_nonneg (first.digits asked) (second.digits asked)
  exact addSigned_nonneg _ _ aligned.1 aligned.2

theorem subFinite_sound (r : Rounding) (first : a.Sound natural) (second : b.Sound natural) :
    Yields (Sound natural) (subFinite r a b) := addFinite_sound r first (second.signed _)

theorem mulFinite_sound (r : Rounding) (first : a.Sound natural) (second : b.Sound natural) :
    Yields (Sound natural) (mulFinite r a b) := by
  refine Yields.bind (place_sound ⟨rfl, fun asked => ?_⟩ _) fun d sound => round_sound r sound
  exact Int.mul_nonneg (first.digits asked) (second.digits asked)

theorem quoFinite_sound (r : Rounding) (a b : Decimal) : Yields (Sound natural) (quoFinite r a b) := by
  rw [quoFinite]
  refine .ite (place_sound .zeroed _) ?_
  split
  exact place_sound .finite_number _

theorem remFinite_sound (r : Rounding) (first : a.Sound natural) (second : b.Sound natural) :
    Yields (Sound natural) (remFinite r a b) := by
  rw [remFinite]
  refine .ite (.error _) (.ite (.error _) (round_sound r ⟨rfl, fun asked => ?_⟩))
  exact Int.tmod_nonneg _ (align_nonneg (first.digits asked) (second.digits asked)).1

theorem powerLoop_sound (r : Rounding) (bits : List Bool) {base result : Decimal}
    (first : base.Sound natural) (second : result.Sound natural) :
    Yields (Sound natural) (powerLoop r bits base result) := by
  induction bits generalizing base result with
  | nil => exact .ok second
  | cons bit rest ih =>
      rw [powerLoop]
      have rest_sound : ∀ {result : Decimal}, result.Sound natural → Yields (Sound natural)
          (if rest.isEmpty then .ok base >>= fun base => powerLoop r rest base result
            else mulFinite r base base >>= fun base => powerLoop r rest base result) := by
        intro result raised
        exact .ite ((Yields.ok first).bind fun _ base => ih base raised)
          ((mulFinite_sound r first first).bind fun _ squared => ih squared raised)
      exact .ite ((mulFinite_sound r second first).bind fun _ raised => rest_sound raised)
        ((Yields.ok second).bind fun _ same => rest_sound same)

theorem integerPower_sound (r : Rounding) (first : a.Sound natural) (n : Int) :
    Yields (Sound natural) (integerPower r a n) :=
  (powerLoop_sound r _ first .one).bind fun _ power => .ite (quoFinite_sound r _ _) (.ok power)

theorem expSeries_sound (r : Rounding) (x : Decimal) (n : Nat) {sum : Decimal}
    (sound : sum.Sound natural) : Yields (Sound natural) (expSeries r x n sum) := by
  induction n generalizing sum with
  | zero => exact .ok sound
  | succ n ih =>
      rw [expSeries]
      refine (quoFinite_sound r _ _).bind fun _ factor => ?_
      refine (mulFinite_sound r factor sound).bind fun _ product => ?_
      exact (addFinite_sound r product .one).bind fun _ next => ih next

theorem exp_sound (r : Rounding) (x : Decimal) : Yields (Sound natural) (exp r x) := by
  rw [exp]
  refine .ite (.ok .one) (.ite (.error _) (.ite (.ok .one) ?_))
  refine (quoFinite_sound _ _ _).bind fun small _ => .ite (.error _) ?_
  refine (expSeries_sound _ small _ .one).bind fun _ sum => ?_
  exact (integerPower_sound _ sum _).bind fun _ power => round_sound _ power

theorem oddPowers_sound (r : Rounding) {z power sum : Decimal} (fuel n : Nat) (small : z.Sound natural)
    (first : power.Sound natural) (second : sum.Sound natural) :
    Yields (Sound natural) (oddPowers r z fuel n power sum) := by
  induction fuel generalizing n power sum with
  | zero => exact .ok second
  | succ fuel ih =>
      rw [oddPowers]
      refine (mulFinite_sound r first small).bind fun _ odd => ?_
      refine (mulFinite_sound r odd small).bind fun _ even => ?_
      refine (quoFinite_sound r _ _).bind fun _ term => ?_
      exact (addFinite_sound r second term).bind fun _ next => .ite (ih _ even next) (.ok next)

theorem logNearOne_sound (r : Rounding) {offset : Decimal} (sound : offset.Sound natural) :
    Yields (Sound natural) (logNearOne r offset) := by
  refine (addFinite_sound r sound (.ofInt 2)).bind fun _ _ => ?_
  refine (quoFinite_sound r _ _).bind fun _ z => ?_
  exact (addFinite_sound r z z).bind fun _ double => oddPowers_sound r _ _ z double double

theorem refineLog_sound (r : Rounding) {z guess : Decimal} (first : z.Sound natural)
    (second : guess.Sound natural) : Yields (Sound natural) (refineLog r z guess) := by
  refine (exp_sound r guess).bind fun _ e => ?_
  refine (subFinite_sound r e first).bind fun _ difference => ?_
  refine (addFinite_sound r difference difference).bind fun _ _ => ?_
  refine (addFinite_sound r e first).bind fun _ _ => ?_
  exact (quoFinite_sound r _ _).bind fun _ change =>
    subFinite_sound r second change

theorem logLoop_sound (r : Rounding) (digits fuel : Nat) {z guess : Decimal} (previous : Decimal)
    (first : z.Sound natural) (second : guess.Sound natural) :
    Yields (Sound natural) (logLoop r digits z fuel previous guess) := by
  induction fuel generalizing previous guess with
  | zero => exact .error _
  | succ fuel ih =>
      rw [logLoop]
      refine (refineLog_sound r first second).bind fun value sound => ?_
      cases settled r digits previous value with
      | error e => exact .error e
      | ok done => exact .ite (.ok sound) (ih value sound)

theorem ln_sound (r : Rounding) {x : Decimal} (sound : x.Sound natural) :
    Yields (Sound natural) (ln r x) := by
  rw [ln]
  refine .ite (.ok .zeroed) ?_
  refine (subFinite_sound _ sound .one).bind fun _ offset => .ite ?_ ?_
  · exact (logNearOne_sound _ offset).bind fun _ logarithm => round_sound r logarithm
  · have scaled := sound.moved (-(x.size : Int))
    refine (mulFinite_sound _ (.ofInt _) .finite_number).bind fun _ added => ?_
    refine (subFinite_sound _ scaled .one).bind fun _ offset => ?_
    refine .ite ((logNearOne_sound _ offset).bind fun _ logarithm => ?_) (.ite (.error _)
      ((logLoop_sound _ _ _ zero scaled .finite_number).bind fun _ logarithm => ?_))
    all_goals exact (addFinite_sound _ logarithm added).bind fun _ sum => round_sound r sum

theorem split_nonneg (sound : 0 ≤ d.coefficient) : 0 ≤ d.split.2.2 := by
  rw [split]
  split
  · exact Int.le_refl 0
  · split
    · exact Int.le_refl 0
    · exact Int.tmod_nonneg _ sound

theorem powerFinite_sound (first : a.Sound natural) (second : b.Sound natural) :
    Yields (Sound natural) (powerFinite a b) := by
  have fraction : Sound natural { b with coefficient := b.split.2.2 } :=
    ⟨second.finite, fun asked => split_nonneg (second.digits asked)⟩
  rw [powerFinite]
  refine (integerPower_sound _ first _).bind fun _ power => .ite (round_sound _ power) ?_
  refine (round_sound _ (first.signed false)).bind fun _ positive => ?_
  refine (ln_sound _ positive).bind fun _ logarithm => ?_
  refine (mulFinite_sound _ logarithm fraction).bind fun product _ => ?_
  refine (exp_sound _ product).bind fun _ factor => ?_
  exact (mulFinite_sound _ power factor).bind fun _ product => round_sound _ product

theorem powerFinite_infinite (first : a.Sound natural) (infinite : b.form = .infinite) :
    Yields (Sound natural) (powerFinite a b) := by
  have nothing : b.split = (0, 0, 0) := by
    rw [split, isFinite, infinite]
    rfl
  rw [powerFinite, nothing]
  refine (integerPower_sound _ first _).bind fun _ power => ?_
  rw [if_pos rfl]
  exact round_sound _ power

end Closure

section Operations

variable {natural : Prop} {a b : Decimal}

theorem withoutNumber?_none (first : a.isNaN = false) (second : b.isNaN = false) :
    withoutNumber? a b = none := by
  rw [isNaN, Bool.or_eq_false_iff] at first second
  rw [withoutNumber?, first.1, first.2, second.1, second.2]
  rfl

theorem Sound.isNaN (sound : a.Sound natural) : a.isNaN = false := by
  rw [Decimal.isNaN, sound.finite]
  rfl

theorem Sound.not_infinite (sound : a.Sound natural) : (a.form == .infinite) = false := by
  rw [sound.finite]
  rfl

/-- A zero is raised to a power below zero. -/
def RaisesZero (a b : Decimal) : Prop := a.isZero = true ∧ b.sign < 0

section

variable (first : a.Sound natural) (second : b.Sound natural)

include first second

theorem add_eq_addFinite : add a b = addFinite standard a b := by
  rw [add, withoutNumber?_none first.isNaN second.isNaN, first.not_infinite, second.not_infinite]

theorem add_sound : Yields (Sound natural) (add a b) := by
  rw [add_eq_addFinite first second]
  exact addFinite_sound standard first second

theorem sub_sound : Yields (Sound natural) (sub a b) := by
  rw [sub, second.isNaN, if_neg Bool.false_ne_true]
  exact add_sound first (second.signed _)

theorem mul_eq_mulFinite : mul a b = mulFinite standard a b := by
  rw [mul, withoutNumber?_none first.isNaN second.isNaN, first.not_infinite, second.not_infinite]
  rfl

theorem mul_sound : Yields (Sound natural) (mul a b) := by
  rw [mul_eq_mulFinite first second]
  exact mulFinite_sound standard first second

theorem quo_eq_quoFinite :
    quo a b = if b.isZero then .error .divisionByZero else quoFinite standard a b := by
  rw [quo, withoutNumber?_none first.isNaN second.isNaN, first.not_infinite, second.not_infinite]

theorem quo_sound : Yields (Sound natural) (quo a b) := by
  rw [quo_eq_quoFinite first second]
  exact .ite (.error _) (quoFinite_sound standard a b)

theorem rem_eq_remFinite :
    rem a b = if b.isZero then .error .divisionByZero else remFinite standard a b := by
  rw [rem, withoutNumber?_none first.isNaN second.isNaN, first.not_infinite, second.not_infinite]
  dsimp only
  rw [if_neg Bool.false_ne_true, if_neg Bool.false_ne_true]

theorem rem_sound : Yields (Sound natural) (rem a b) := by
  rw [rem_eq_remFinite first second]
  exact .ite (.error _) (remFinite_sound standard first second)

theorem pow_sound (proper : ¬RaisesZero a b) : Yields (Sound natural) (pow a b) := by
  rw [pow, withoutNumber?_none first.isNaN second.isNaN, first.not_infinite]
  dsimp only
  rw [if_neg Bool.false_ne_true]
  split
  · rename_i zero
    split
    · exact .error _
    · rename_i nonzero
      split
      · rename_i below
        refine absurd ⟨zero, ?_⟩ proper
        rw [sign, if_neg nonzero, if_pos below]
        decide
      · exact .ok .zeroed
  · exact .ite (.ok .one) (.ite (.error _) (powerFinite_sound first second))

end

theorem pow_raisesZero (second : b.isNaN = false) (raises : RaisesZero a b) :
    ∃ negative, pow a b = .ok (infinity negative) := by
  obtain ⟨zero, below⟩ := raises
  have finite : a.form = .finite := by
    rw [isZero, Bool.and_eq_true, isFinite, beq_iff_eq] at zero
    exact zero.1
  have sound : a.Sound False := sound_iff_finite.mpr finite
  have negative : b.isZero = false ∧ b.negative = true := by
    rw [sign] at below
    cases nothing : b.isZero <;> cases minus : b.negative <;> rw [nothing, minus] at below <;>
      first | exact ⟨rfl, rfl⟩ | exact absurd below (by decide)
  rw [pow, withoutNumber?_none sound.isNaN second, sound.not_infinite, zero, negative.1, negative.2]
  exact ⟨_, rfl⟩

/-- A regular number or an infinity. -/
def Extended (d : Decimal) : Prop := d.Regular ∨ d.form = .infinite

theorem Extended.isNaN (extended : a.Extended) : a.isNaN = false := by
  rcases extended with regular | infinite
  · exact regular.sound.isNaN
  · rw [Decimal.isNaN, infinite]
    rfl

theorem Extended.sound (extended : a.Extended) (finite : (a.form == .infinite) = false) :
    a.Sound True := by
  rcases extended with regular | infinite
  · exact regular.sound
  · rw [infinite] at finite
    cases finite

theorem Sound.extended (sound : a.Sound True) : a.Extended := .inl (sound_iff_regular.mp sound)

theorem extended_infinity (negative : Bool) : (infinity negative).Extended := .inr rfl

theorem Yields.extended {outcome : Except ArithmeticError Decimal}
    (sound : Yields (Sound True) outcome) : Yields Extended outcome :=
  fun d same => (sound d same).extended

section

variable (first : a.Extended) (second : b.Extended)

include first second

theorem add_extended : Yields Extended (add a b) := by
  rw [add, withoutNumber?_none first.isNaN second.isNaN]
  dsimp only
  split
  · exact .ite (.ok first) (.error _)
  · exact .ok first
  · exact .ok (extended_infinity _)
  · rename_i finite finiteToo
    exact (addFinite_sound standard (first.sound finite) (second.sound finiteToo)).extended

theorem sub_extended : Yields Extended (sub a b) := by
  rw [sub, second.isNaN, if_neg Bool.false_ne_true]
  refine add_extended first ?_
  rcases second with regular | infinite
  · exact .inl ⟨regular.finite, regular.natural⟩
  · exact .inr infinite

theorem mul_extended : Yields Extended (mul a b) := by
  rw [mul, withoutNumber?_none first.isNaN second.isNaN]
  dsimp only
  split
  · exact .ite (.error _) (.ok (extended_infinity _))
  · rename_i finite
    rw [Bool.not_eq_true, Bool.or_eq_false_iff] at finite
    exact (mulFinite_sound standard (first.sound finite.1) (second.sound finite.2)).extended

theorem quo_extended : Yields Extended (quo a b) := by
  rw [quo, withoutNumber?_none first.isNaN second.isNaN]
  refine .ite (.error _) ?_
  dsimp only
  split
  · exact .error _
  · exact .ok (extended_infinity _)
  · exact .ok (Sound.zeroed.extended)
  · exact (quoFinite_sound standard a b).extended

theorem rem_extended : Yields Extended (rem a b) := by
  rw [rem, withoutNumber?_none first.isNaN second.isNaN]
  refine .ite (.error _) ?_
  dsimp only
  split
  · exact .error _
  · rename_i finite
    split
    · exact .ok first
    · rename_i finiteToo
      rw [Bool.not_eq_true] at finite finiteToo
      exact (remFinite_sound standard (first.sound finite) (second.sound finiteToo)).extended

theorem pow_extended : Yields Extended (pow a b) := by
  rw [pow, withoutNumber?_none first.isNaN second.isNaN]
  dsimp only
  split
  · exact .ite (.ok Sound.one.extended) (.ite (.error _) (.ite (.ok Sound.zeroed.extended)
      (.ok (extended_infinity _))))
  · rename_i finite
    have base := first.sound (Bool.not_eq_true _ ▸ finite)
    refine .ite (.ite (.error _) (.ite (.ok (extended_infinity _)) (.ok Sound.zeroed.extended)))
      (.ite (.ok Sound.one.extended) (.ite (.error _) ?_))
    rcases second with regular | infinite
    · exact (powerFinite_sound base regular.sound).extended
    · exact (powerFinite_infinite base infinite).extended

end

end Operations

end Reckoner.Decimal
