import Reckoner.Proofs.Compiler.Language
import Reckoner.Proofs.Machine.Agreement

/-!
What compiled sources mean. A machine that runs a compiled expression or a compiled script comes to
what the tree of the source evaluates to.
-/

namespace Reckoner

open Script

/-! Libraries -/

def Shared.standardReply (n : Native) (shared : Shared) : Except Cause Value × Shared :=
  match n.code with
  | "clock" =>
    let (d, world) := shared.world.readClock
    (.ok (.number d), { shared with world })
  | "random" =>
    let (d, world) := shared.world.draw
    (.ok (.number d), { shared with world })
  | _ => (.error (.host (.plain ("native " ++ n.name ++ " has no handler"))), shared)

/-- What a routine has stored for a literal. -/
def Script.storedNumber (r : Routine) (d : Decimal) : Decimal :=
  match r.constants[Pool.find r.constants (.number d)]? with
  | some (.number e) => e
  | _ => d

def Script.storedFunction (r : Routine) (f : Function) : Value :=
  match r.constants[Pool.findRoutine r.constants ⟨r.identity.unit, f.index⟩]? with
  | some (.routine q) => .routine q
  | _ => .foreign

/-- There is a library that is right about a host whose natives look at what is shared only. -/
theorem Script.Library.exists_sound {host : Host}
    {native : Native → List Value → Shared → Except Cause Value × Shared}
    (replies : ∀ n args m, (∀ v ∈ args, v.Proper) → m.ProperGlobals →
      (Machine.performBusy host n args m).Replies (native n args m.shared)) :
    ∃ library : Library, library.Sound host := by
  have trees : ∀ r : Routine, ∃ program : Program, r.Compiled →
      ∃ unit, Implements unit program.isGlobal r program.function := by
    intro r
    by_cases compiled : r.Compiled
    · obtain ⟨unit, isGlobal, f, implements⟩ := compiled.implements
      exact ⟨⟨isGlobal, f⟩, fun _ => ⟨unit, implements⟩⟩
    · exact ⟨⟨true, scriptOf []⟩, fun known => absurd known compiled⟩
  choose program known using trees
  refine ⟨{ program, literal := storedNumber, inner := storedFunction, native },
    known, ?_, ?_, replies⟩
  · intro r d e stored
    dsimp only
    rw [storedNumber, stored]
  · intro r f q stored
    dsimp only
    rw [storedFunction, stored]

theorem Host.standard_replies (n : Native) (args : List Value) (m : Machine) :
    (Machine.performBusy Host.standard n args m).Replies (m.shared.standardReply n) := by
  rw [Machine.performBusy]
  by_cases clock : n.code = "clock"
  · simp only [Host.standard, Shared.standardReply, clock]
    rfl
  by_cases random : n.code = "random"
  · simp only [Host.standard, Shared.standardReply, random]
    rfl
  · simp only [Host.standard, Shared.standardReply]
    rfl

theorem Machine.Rests.unlimited_of_done {host : Host} {m after : Machine} (rests : m.Rests)
    {unit : Nat} {source : List UInt8} {r : Routine}
    (accepted : compileBytes unit source = .ok r ∨ compileExpressionBytes unit source = .ok r)
    {fuel : Nat} (done : m.interpret host fuel r = .done () after) : m.Unlimited host r := by
  refine rests.unlimited ⟨unit, source, r, accepted, .self⟩ ?_ done
  rcases accepted with script | expression
  · obtain ⟨f, tree, implements⟩ := Compiler.script_implements script
    obtain ⟨body, -, rfl⟩ := Option.map_eq_some_iff.mp tree
    exact implements.arity
  · obtain ⟨f, tree, implements⟩ := Compiler.expression_implements expression
    obtain ⟨e, -, rfl⟩ := Option.map_eq_some_iff.mp tree
    exact implements.arity

def Ending.passes {α : Type} (test : Machine → Bool) : Ending α → Bool
  | .done _ m => test m
  | _ => false

theorem exists_done {ε : Type} {compiled : Except ε Routine} {runs : Routine → Ending Unit}
    {test : Machine → Bool} (passed : (compiled.toOption.any fun r => (runs r).passes test) = true) :
    ∃ r after, compiled = .ok r ∧ runs r = .done () after ∧ test after = true := by
  cases compiled with
  | error _ => exact absurd passed Bool.false_ne_true
  | ok r =>
      have ended : (runs r).passes test = true := passed
      generalize endingEq : runs r = ending at ended
      cases ending with
      | done _ after => exact ⟨r, after, rfl, endingEq, ended⟩
      | _ => exact absurd ended Bool.false_ne_true

/-! Expressions -/

theorem Script.Program.run_expression (library : Library) (level : Level) (r : Routine)
    (e : Expression) :
    (Program.mk true (expressionOf e)).run library level r = e.eval library level r := by
  funext env
  rw [Program.run]
  rfl

section

variable {host : Host} (honest : host.Honest) {library : Library} (sound : library.Sound host)

include honest sound

theorem Script.Program.computes {unit : Nat} {r : Routine} (program : Program) (compiled : r.Compiled)
    (implements : Implements unit program.isGlobal r program.function)
    (closed : program.function.parameters = []) {m : Machine} (idle : m.isRunning = false)
    (globals : m.ProperGlobals) (unlimited : m.Unlimited host r) :
    m.Computes host r fun depth =>
      program.run library (library.levels depth) r ⟨[], m.shared⟩ := by
  have arity : r.arity = 0 := by rw [implements.arity, closed]; rfl
  refine Machine.computes honest idle globals compiled arity unlimited fun depth first below start => ?_
  have names : Environment.names ⟨[], m.shared⟩ = program.function.scope := by
    rw [Function.scope, closed]
    rfl
  exact (program.follows (sound.levels honest.serves depth) implements start names).before .none
    (by omega)

/-- A compiled expression means what its tree says. On a machine that is not running, a run of it that
hits no limit ends if and only if the evaluation of the tree does, with the same value or the same fault
and with the same globals and output. Inside a function, too, the code of an expression goes as its
evaluation does: it reads and writes the slots of the locals and leaves the value on top of whatever
waits there. A literal denotes the number that its function stores for it, which is equal to it. -/
theorem expressions_evaluate :
    (∀ unit source r, compileExpressionBytes unit source = .ok r →
      ∃ e, (∀ other, Grammar.SingleExpression (scan source) other ↔ other = e) ∧
        ∀ m : Machine, m.isRunning = false → m.ProperGlobals → m.Unlimited host r →
          m.Computes host r fun depth =>
            e.eval library (library.levels depth) r ⟨[], m.shared⟩) ∧
    (∀ (c : Call) (p : Nat) (env : Environment) (temps : List Value) (m : Machine) (e : Expression),
      c.At p env temps m → c.routine.Holds p (e.code c.routine.constants env.names) →
      ∀ depth, m.Tracks host (depth + 1)
        (c.Yields (p + codeSize (e.code c.routine.constants env.names)) env.names temps)
        (e.eval library (library.levels depth) c.routine env)) ∧
    ∀ (r : Routine) (p : Nat) (scope : List String) (d : Decimal),
      r.Holds p ((Expression.number d).code r.constants scope) →
      (library.literal r d).same d = true := by
  refine ⟨?_, ?_, ?_⟩
  · intro unit source r accepted
    have compiled : r.Compiled := ⟨unit, source, r, .inr accepted, .self⟩
    obtain ⟨f, tree, implements⟩ := Compiler.expression_implements accepted
    obtain ⟨e, read, rfl⟩ := Option.map_eq_some_iff.mp tree
    refine ⟨e, fun other => ?_, fun m idle globals unlimited => ?_⟩
    · rw [← Grammar.singleExpression_eq_some_iff (scan_spec source).1 (Compiler.fuelFor_enough source), read,
        Option.some_inj]
      exact eq_comm
    · have computes := Program.computes honest sound ⟨true, expressionOf e⟩ compiled implements rfl
        idle globals unlimited
      simpa only [Program.run_expression] using computes
  · intro c p env temps m e start holds depth
    exact e.follows (sound.levels honest.serves depth).toCalls start rfl holds
  · intro r p scope d holds
    obtain ⟨e, stored, same⟩ := Pool.find_number (holds.1.stored rfl)
    rwa [sound.literal r d e stored]

end

/-- Powers and an alternative, one side of which is never evaluated. -/
theorem expressions_evaluate_power :
    let source := "2 ** 3 ** 2 - clock() > 500 or missing"
    let m := Machine.new 0 ⟨0, 0⟩
    ∃ library : Library, library.Sound Host.standard ∧ ∃ r e, compileExpression 0 source = .ok r ∧
      Grammar.SingleExpression (scan (bytesOf source)) e ∧
      m.Computes Host.standard r fun depth =>
        e.eval library (library.levels depth) r ⟨[], m.shared⟩ := by
  intro source m
  obtain ⟨library, sound⟩ := Library.exists_sound fun n args m _ _ => Host.standard_replies n args m
  obtain ⟨r, after, accepted, done, -⟩ := exists_done (show
    ((compileExpression 0 source).toOption.any fun r =>
      (m.interpret Host.standard 100 r).passes fun _ => true) = true by decide +kernel)
  obtain ⟨e, tree, computes⟩ :=
    (expressions_evaluate Host.standard_honest sound).1 0 (bytesOf source) r accepted
  have rests := Machine.new_rests 0 ⟨0, 0⟩
  exact ⟨library, sound, r, e, accepted, (tree e).mpr rfl, computes m rfl rests.globals
    (rests.unlimited_of_done (.inr accepted) done)⟩

/-! Scripts -/

section

variable {host : Host} (honest : host.Honest) {library : Library} (sound : library.Sound host)

include honest sound

/-- A compiled script does what its tree says. On a machine that is not running, a run of it that hits no
limit ends if and only if the execution of the tree does, well or with the same fault, and with the same
globals and output. Whenever it gets to where a statement begins or ends, or to where `break` and
`continue` lead, the innermost call has its locals in scope on the stack and nothing else. The code of a
statement goes as its execution does and leads there, whichever way the statement is left. -/
theorem scripts_execute :
    (∀ unit source r, compileBytes unit source = .ok r →
      ∃ body, (∀ other, Grammar.Sentence (scan source) other ∧ NearestAll other ↔ other = body) ∧
        ∀ m : Machine, m.isRunning = false → m.ProperGlobals →
          (m.Unlimited host r → m.Computes host r fun depth =>
            (Program.mk true (scriptOf body)).run library (library.levels depth) r
              ⟨[], m.shared⟩) ∧
          ∀ n first state frame rest, m.Starts r [] first → Machine.Steps host n first state →
            state.frames = frame :: rest → ∀ unit isGlobal f,
              Implements unit isGlobal frame.routine f →
              ∀ joint ∈ f.joints frame.routine.constants unit isGlobal, frame.ip = joint.offset →
                state.height = frame.base + (joint.scope.length + 1)) ∧
    ∀ (c : Call) (p target : Nat) (env : Environment) (loop : Option LoopSite) (m : Machine)
      (s : Statement), c.At p env [] m →
      Inside (fun _ _ => True) env.names loop target p
        (slotsSize (s.code c.routine.constants c.routine.identity.unit env.names loop p)) →
      c.routine.Holds p (resolveFrom target p
        (s.code c.routine.constants c.routine.identity.unit env.names loop p)) →
      ∀ depth, m.Tracks host (depth + 1)
        (c.Leaves loop target
          (p + slotsSize (s.code c.routine.constants c.routine.identity.unit env.names loop p))
          env.names (· = env.names))
        (s.exec library (library.levels depth) c.routine loop.isSome env) := by
  constructor
  · intro unit source r accepted
    have compiled : r.Compiled := ⟨unit, source, r, .inl accepted, .self⟩
    obtain ⟨f, tree, implements⟩ := Compiler.script_implements accepted
    obtain ⟨body, read, rfl⟩ := Option.map_eq_some_iff.mp tree
    refine ⟨body, fun other => ?_, fun m idle globals => ⟨fun unlimited => ?_, ?_⟩⟩
    · rw [← Grammar.declarations_eq_some_iff (scan_spec source).1 (Compiler.fuelFor_enough source), read,
        Option.some_inj]
      exact eq_comm
    · exact Program.computes honest sound ⟨true, scriptOf body⟩ compiled implements rfl idle globals
        unlimited
    · intro n first state frame rest starts steps frames unit isGlobal f implements joint member here
      exact Machine.height_at_joint honest globals compiled starts steps frames implements member here
  · intro c p target env loop m s start nested holds depth
    exact s.follows (sound.levels honest.serves depth) start rfl nested holds

end

/-- A loop that calls a function, which calls itself, and leaves a round early. -/
theorem scripts_execute_loop :
    let source := "fn f(n) { if n < 1: return 0; return n + f(n - 1); } " ++
      "for var i = 0; i < 4; i += 1: { if i == 2: continue; print f(i); }"
    let m := Machine.new 0 ⟨0, 0⟩
    ∃ library : Library, library.Sound Host.standard ∧ ∃ r body, compile 0 source = .ok r ∧
      Grammar.Sentence (scan (bytesOf source)) body ∧
      m.Computes Host.standard r fun depth =>
        (Program.mk true (scriptOf body)).run library (library.levels depth) r ⟨[], m.shared⟩ := by
  intro source m
  obtain ⟨library, sound⟩ := Library.exists_sound fun n args m _ _ => Host.standard_replies n args m
  obtain ⟨r, after, accepted, done, -⟩ := exists_done (show
    ((compile 0 source).toOption.any fun r =>
      (m.interpret Host.standard 300 r).passes fun _ => true) = true by decide +kernel)
  obtain ⟨body, tree, computes⟩ :=
    (scripts_execute Host.standard_honest sound).1 0 (bytesOf source) r accepted
  have rests := Machine.new_rests 0 ⟨0, 0⟩
  exact ⟨library, sound, r, body, accepted, ((tree body).mpr rfl).1,
    (computes m rfl rests.globals).1 (rests.unlimited_of_done (.inl accepted) done)⟩

/-! A number that is written twice -/

def longNumber : Decimal := { coefficient := 3394478465288091530152461077 }

/-- The same number with a digit more, whose powers are computed with a digit more before they are
rounded. -/
def longFraction : Decimal := { coefficient := 33944784652880915301524610770, exponent := -1 }

def two : Decimal := { coefficient := 2 }

/-- The square of the number as it is written with a fraction digit. Without it the last digit is 2. -/
def longSquare : Decimal := { coefficient := 1152248405130459721518585131, exponent := 28 }

theorem longFraction_squared : Operator.apply .power (.number longFraction) (.number two) =
    .ok (.number longSquare) := by
  have squared : longFraction.pow two = .ok longSquare := by
    have same : (longFraction.pow two).toOption.any (· == longSquare) = true := by decide +kernel
    cases power : longFraction.pow two with
    | ok d =>
        rw [power] at same
        exact congrArg Except.ok (eq_of_beq same)
    | error message =>
        rw [power] at same
        exact absurd same Bool.false_ne_true
  rw [Operator.apply, arithmetic, onNumbers]
  rw [squared]

/-- An expression in which a literal does not denote the number as it is written, since its function
has stored an equal one before. -/
theorem literal_shared_in_expression :
    let source := "false and 3394478465288091530152461077 or 3394478465288091530152461077.0 ** 2"
    let m := Machine.new 0 ⟨0, 0⟩
    ∃ r e, compileExpression 0 source = .ok r ∧ Grammar.SingleExpression (scan (bytesOf source)) e ∧
      m.Unlimited Host.standard r ∧
      ∀ library : Library, (∀ r d, library.literal r d = d) →
        ¬m.Computes Host.standard r fun depth =>
          e.eval library (library.levels depth) r ⟨[], m.shared⟩ := by
  intro source m
  obtain ⟨r, after, accepted, done, differs⟩ := exists_done (show
    ((compileExpression 0 source).toOption.any fun r =>
      (m.interpret Host.standard 100 r).passes fun after =>
        after.values.all fun v => !v.same (.number longSquare)) = true by decide +kernel)
  have reads : ((Reader.singleExpression (Compiler.fuelFor (scan (bytesOf source)))
      (scan (bytesOf source))).any fun e =>
      match e with
      | .or (.and (.bool false) (.number a)) (.binary .power (.number b) (.number c)) =>
        a == longNumber && b == longFraction && c == two
      | _ => false) = true := by decide +kernel
  obtain ⟨e, read, shape⟩ := (Option.any_eq_true ..).mp reads
  have tree : Grammar.SingleExpression (scan (bytesOf source)) e :=
    (Grammar.singleExpression_eq_some_iff (scan_spec _).1 (Compiler.fuelFor_enough _)).mp read
  obtain rfl : e = .or (.and (.bool false) (.number longNumber))
      (.binary .power (.number longFraction) (.number two)) := by
    split at shape
    · simp only [Bool.and_eq_true, beq_iff_eq] at shape
      obtain ⟨⟨rfl, rfl⟩, rfl⟩ := shape
      rfl
    · exact absurd shape Bool.false_ne_true
  have rests := Machine.new_rests 0 ⟨0, 0⟩
  refine ⟨r, _, accepted, tree, rests.unlimited_of_done (.inr accepted) done,
    fun library written computes => ?_⟩
  have agrees := computes.agrees 100 0
  have value : ∀ level env, (Expression.or (.and (.bool false) (.number longNumber))
      (.binary .power (.number longFraction) (.number two))).eval library level r env =
        .done (.number longSquare) env := by
    intro level env
    show attempt (Operator.apply .power (.number (library.literal r longFraction))
      (.number (library.literal r two))) env = _
    rw [written, written, longFraction_squared]
    rfl
  rw [done, value] at agrees
  have values : after.values = [.number longSquare] := agrees.1
  rw [values] at differs
  exact absurd differs (by decide +kernel)

def printsSquare : List Script.Declaration → Bool
  | [.statement (.expression (.number a)),
      .statement (.print (.binary .power (.number b) (.number c)))] =>
    a == longNumber && b == longFraction && c == two
  | _ => false

/-- A script that prints something else than its literals say, for the same reason. -/
theorem literal_shared_in_script :
    let source := "3394478465288091530152461077; print 3394478465288091530152461077.0 ** 2;"
    let m := Machine.new 0 ⟨0, 0⟩
    ∃ r body, compile 0 source = .ok r ∧ Grammar.Sentence (scan (bytesOf source)) body ∧
      m.Unlimited Host.standard r ∧
      ∀ library : Library, (∀ r d, library.literal r d = d) →
        ¬m.Computes Host.standard r fun depth =>
          (Program.mk true (scriptOf body)).run library (library.levels depth) r ⟨[], m.shared⟩ := by
  intro source m
  let line := (Value.number longSquare).display ++ "\n"
  obtain ⟨r, after, accepted, done, differs⟩ := exists_done (show
    ((compile 0 source).toOption.any fun r =>
      (m.interpret Host.standard 100 r).passes fun after =>
        after.written.all fun entry => entry.2 != line) = true by decide +kernel)
  have reads : ((Reader.declarations (Compiler.fuelFor (scan (bytesOf source))) 1
      (scan (bytesOf source))).any printsSquare) = true := by decide +kernel
  obtain ⟨body, read, shape⟩ := (Option.any_eq_true ..).mp reads
  have tree : Grammar.Sentence (scan (bytesOf source)) body :=
    ((Grammar.declarations_eq_some_iff (scan_spec _).1 (Compiler.fuelFor_enough _)).mp read).1
  obtain rfl : body = [.statement (.expression (.number longNumber)),
      .statement (.print (.binary .power (.number longFraction) (.number two)))] := by
    unfold printsSquare at shape
    split at shape
    · simp only [Bool.and_eq_true, beq_iff_eq] at shape
      obtain ⟨⟨rfl, rfl⟩, rfl⟩ := shape
      rfl
    · exact absurd shape Bool.false_ne_true
  have rests := Machine.new_rests 0 ⟨0, 0⟩
  refine ⟨r, _, accepted, tree, rests.unlimited_of_done (.inl accepted) done,
    fun library written computes => ?_⟩
  have agrees := computes.agrees 100 0
  have printed : ∀ level shared, (Program.mk true (scriptOf [.statement (.expression
      (.number longNumber)), .statement (.print (.binary .power (.number longFraction)
        (.number two)))])).run library level r ⟨[], shared⟩ = .done (.bool false)
          ⟨[], { shared with written := shared.written.push (.out, line) }⟩ := by
    intro level shared
    have power : Operator.apply .power (.number (library.literal r longFraction))
        (.number (library.literal r two)) = .ok (.number longSquare) := by
      rw [written, written, longFraction_squared]
    show Outcome.andThen (Outcome.andThen (Outcome.andThen (attempt (Operator.apply .power
      (.number (library.literal r longFraction)) (.number (library.literal r two)))
        ⟨[], shared⟩) _) _) _ = _
    rw [power]
    rfl
  rw [done, printed] at agrees
  have lines : after.written = #[(.out, line)] := congrArg Shared.written agrees.2
  rw [lines] at differs
  simp at differs

end Reckoner
