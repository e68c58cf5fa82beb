import Reckoner.Proofs.Machine.Programs
import Reckoner.Proofs.Machine.Restoration

/-!
Runs and evaluations. What a host runs ends if and only if its evaluation does, and in the same way:
with the same value or the same fault, and with the same things shared.
-/

namespace Reckoner

open Script

def Shared.reported (shared : Shared) (f : Fault) : Shared :=
  { shared with written := shared.written.push (.err, f.report) }

def Ending.isOver {α : Type} : Ending α → Bool
  | .exhausted _ => false
  | _ => true

def Script.Outcome.isOver {α : Type} : Outcome α → Bool
  | .unfinished => false
  | _ => true

/-- A run and an evaluation that are both over have ended alike. The value is on top of the stack that
the host had, and a fault has been reported. -/
def Ending.Agrees (below : List Value) : Ending Unit → Outcome Value → Prop
  | .exhausted _, _ | _, .unfinished => True
  | .done _ after, .done v env => after.values = below ++ [v] ∧ after.shared = env.shared
  | .fault f after, .fault cause shared => f.cause = cause ∧ after.shared = shared.reported f
  | _, _ => False

theorem Ending.Agrees.of_not_over {below : List Value} {ending : Ending Unit} {outcome : Outcome Value}
    (runs : ending.isOver = false) : ending.Agrees below outcome := by
  cases ending with
  | exhausted m => trivial
  | _ => exact absurd runs.symm Bool.false_ne_true

namespace Machine

/-- Running a routine comes to the same as an evaluation to any depth: one ends if the other does, and
they end alike. -/
structure Computes (host : Host) (m : Machine) (r : Routine) (outcome : Nat → Outcome Value) :
    Prop where
  ends : (∃ fuel, (m.interpret host fuel r).isOver = true) ↔ ∃ depth, (outcome depth).isOver = true
  agrees : ∀ fuel depth, (m.interpret host fuel r).Agrees m.values (outcome depth)

/-- No run of the routine hits a limit of the machine. -/
def Unlimited (host : Host) (m : Machine) (r : Routine) : Prop :=
  ∀ fuel f after, m.interpret host fuel r = .fault f after → f.cause.isLimit = false

end Machine

section

variable (runs : Nat → Ending Unit)

def Outlasts (n : Nat) : Prop := ∀ fuel ≤ n, (runs fuel).isOver = false

def EndsAs (ending : Ending Unit) : Prop :=
  ∃ n, Outlasts runs n ∧ ∀ fuel, n < fuel → runs fuel = ending

def Script.Outcome.ShownBy (below : List Value) (least : Nat) : Outcome Value → Prop
  | .done v env => ∃ after, EndsAs runs (.done () after) ∧ after.values = below ++ [v] ∧
    after.shared = env.shared
  | .fault cause shared => ∃ f after, EndsAs runs (.fault f after) ∧ f.cause = cause ∧
    after.shared = shared.reported f
  | .unfinished => Outlasts runs least

end

namespace Script.Outcome.ShownBy

variable {runs : Nat → Ending Unit} {below : List Value}

theorem agrees {least : Nat} {outcome : Outcome Value} (shown : outcome.ShownBy runs below least)
    (fuel : Nat) : (runs fuel).Agrees below outcome := by
  cases outcome with
  | done v env =>
      obtain ⟨after, ⟨n, before, final⟩, result⟩ := shown
      rcases Nat.lt_or_ge n fuel with enough | less
      · rw [final fuel enough]
        exact result
      · exact .of_not_over (before fuel less)
  | fault cause shared =>
      obtain ⟨f, after, ⟨n, before, final⟩, result⟩ := shown
      rcases Nat.lt_or_ge n fuel with enough | less
      · rw [final fuel enough]
        exact result
      · exact .of_not_over (before fuel less)
  | unfinished => cases runs fuel <;> trivial

theorem ends {outcome : Nat → Outcome Value}
    (shown : ∀ depth, (outcome depth).ShownBy runs below depth) :
    (∃ fuel, (runs fuel).isOver = true) ↔ ∃ depth, (outcome depth).isOver = true := by
  constructor
  · rintro ⟨fuel, ended⟩
    refine ⟨fuel, ?_⟩
    have seen := shown fuel
    cases reached : outcome fuel with
    | unfinished =>
        rw [reached] at seen
        rw [seen fuel (Nat.le_refl _)] at ended
        exact absurd ended Bool.false_ne_true
    | _ => rfl
  · rintro ⟨depth, ended⟩
    have seen := shown depth
    cases reached : outcome depth with
    | done v env =>
        rw [reached] at seen
        obtain ⟨after, ⟨n, -, final⟩, -⟩ := seen
        exact ⟨n + 1, by rw [final (n + 1) (Nat.lt_succ_self n)]; rfl⟩
    | fault cause shared =>
        rw [reached] at seen
        obtain ⟨f, after, ⟨n, -, final⟩, -⟩ := seen
        exact ⟨n + 1, by rw [final (n + 1) (Nat.lt_succ_self n)]; rfl⟩
    | unfinished =>
        rw [reached] at ended
        exact absurd ended Bool.false_ne_true

end Script.Outcome.ShownBy

namespace Machine

section

variable {host : Host} {n : Nat} {m last : Machine} (steps : Steps host n m last)

include steps

theorem Steps.outlasts : Outlasts (run host · m) n := by
  induction steps with
  | none =>
      intro fuel bound
      obtain rfl := Nat.le_zero.mp bound
      rfl
  | more stepped others ih =>
      intro fuel bound
      cases fuel with
      | zero => rfl
      | succ fuel =>
          dsimp only
          rw [run, stepped]
          exact ih fuel (Nat.le_of_succ_le_succ bound)

theorem Steps.endsAs {ending : Ending Unit} (final : ∀ fuel, last.run host (fuel + 1) = ending) :
    EndsAs (run host · m) ending := by
  refine ⟨n, steps.outlasts, fun fuel more => ?_⟩
  obtain ⟨k, rfl⟩ := Nat.exists_eq_add_of_lt more
  dsimp only
  rw [Nat.add_assoc, steps.run_eq, final]

end

theorem Fails.endsAs {host : Host} {m after : Machine} {f : Fault} (fails : m.Fails host f after) :
    EndsAs (run host · m) (.fault f after) := by
  obtain ⟨n, last, steps, raised⟩ := fails
  exact steps.endsAs fun fuel => by rw [run, raised]

end Machine

def Ending.settle (height : Nat) : Ending Unit → Ending Unit
  | .fault f after => .fault f (after.abandon f height)
  | ending => ending

theorem Ending.isOver_settle (ending : Ending Unit) (height : Nat) :
    (ending.settle height).isOver = ending.isOver := by
  cases ending <;> rfl

structure Resumes (runs inner : Nat → Ending Unit) (height : Nat) : Prop where
  early : ∀ fuel < 2, (runs fuel).isOver = false
  later : ∀ fuel, runs (fuel + 2) = (inner fuel).settle height

namespace Resumes

variable {runs inner : Nat → Ending Unit} {height n : Nat} (resumes : Resumes runs inner height)

include resumes

theorem outlasts (inside : Outlasts inner n) : Outlasts runs (n + 2) := by
  intro fuel bound
  by_cases early : fuel < 2
  · exact resumes.early fuel early
  · obtain ⟨k, rfl⟩ := Nat.exists_eq_add_of_le' (Nat.le_of_not_lt early)
    rw [resumes.later, Ending.isOver_settle]
    exact inside k (by omega)

theorem endsAs {ending : Ending Unit} (inside : EndsAs inner ending) :
    EndsAs runs (ending.settle height) := by
  obtain ⟨n, before, final⟩ := inside
  refine ⟨n + 2, resumes.outlasts before, fun fuel more => ?_⟩
  obtain ⟨k, rfl⟩ := Nat.exists_eq_add_of_le' (show 2 ≤ fuel by omega)
  rw [resumes.later, final k (by omega)]

end Resumes

namespace Machine

section

variable {host : Host} {m : Machine} (rests : m.Rests)

include rests

theorem Rests.interpret_cases (host : Host) {r : Routine} (compiled : r.Compiled) (arity : r.arity = 0) :
    (∃ first, Call.At ⟨r, m.values, []⟩ 0 ⟨[], m.shared⟩ [] first ∧
      Resumes (interpret host · r m) (run host · first) m.height) ∨
    ∃ f after, f.cause.isLimit = true ∧
      Resumes (interpret host · r m) (fun _ => .fault f after) m.height := by
  have still : ¬m.isRunning = true := Bool.eq_false_iff.mp rests.idle
  have none : ∀ v ∈ ([] : List Value), v.Proper := nofun
  have early : ∀ fuel < 2, (m.interpret host fuel r).isOver = false := by
    intro fuel early
    obtain rfl | rfl : fuel = 0 ∨ fuel = 1 := by omega
    · rfl
    · rw [interpret, if_neg still, invoke]
      rfl
  cases pushed : m.prepare.pushAll [.routine r] with
  | error full =>
      refine .inr ⟨full.faultOf .stackFull, full, rfl, early, fun fuel => ?_⟩
      rw [interpret, if_neg still, invoke, pushed, Ending.settle]
  | ok full =>
      obtain ⟨s, fullEq, grown⟩ := pushAll_eq pushed
      have frames : full.frames = [] := by rw [fullEq]; rfl
      have values : full.values = m.values ++ [.routine r] := by rw [fullEq]; exact grown
      have arityEq : ¬r.arity ≠ (([] : List Value).length : Int) := not_not_intro arity
      by_cases deep : full.maxFrames ≤ full.frames.length
      · refine .inr ⟨full.faultOf .callDepth, full, rfl, early, fun fuel => ?_⟩
        rw [interpret, if_neg still, invoke, pushed]
        simp only [callValue]
        rw [enter, if_neg arityEq, if_pos deep, raise, Ending.settle]
      · have height : full.height - ([] : List Value).length - 1 = m.values.length := by
          rw [← length_values, values, List.length_append]
          simp
        let first : Machine := { full with frames := [⟨r, 0, m.values.length, 0⟩] }
        have entered : full.enter r ([] : List Value).length = .next first := by
          rw [enter, if_neg arityEq, if_neg deep]
          dsimp only
          rw [height, frames]
        have shared : first.shared = m.shared := by
          rw [show first.shared = full.shared from rfl, fullEq]
          rfl
        refine .inl ⟨first, ⟨⟨⟨0, rfl⟩, ?_, shared⟩,
          rests.orderly compiled none ⟨full, pushed, entered⟩⟩, early, fun fuel => ?_⟩
        · rw [Call.ground, List.append_nil]
          exact values
        · rw [interpret, if_neg still, invoke, pushed]
          simp only [callValue]
          rw [entered]
          dsimp only
          cases first.run host fuel <;> rfl

theorem Rests.shownBy {r : Routine} {depth : Nat} {outcome : Outcome Value} (compiled : r.Compiled)
    (arity : r.arity = 0) (unlimited : m.Unlimited host r)
    (follows : ∀ first, Call.At ⟨r, m.values, []⟩ 0 ⟨[], m.shared⟩ [] first →
      first.Tracks host depth (Call.Returns ⟨r, m.values, []⟩) outcome) :
    outcome.ShownBy (interpret host · r m) m.values depth := by
  have allowed : ∀ {fuel f after}, m.interpret host fuel r = .fault f after →
      ¬f.cause.isLimit = true := fun {fuel f after} raised => by
    rw [unlimited fuel f after raised]
    exact Bool.false_ne_true
  rcases rests.interpret_cases host compiled arity with
    ⟨first, start, resumes⟩ | ⟨f, after, limit, resumes⟩
  · have noLimit : ∀ {f after}, first.Fails host f after → ¬f.cause.isLimit = true := by
      intro f after fails
      obtain ⟨n, -, final⟩ := resumes.endsAs fails.endsAs
      exact allowed (final (n + 1) (Nat.lt_succ_self n))
    rcases follows first start with ⟨f, after, fails, limit⟩ | goes
    · exact absurd limit (noLimit fails)
    · cases outcome with
      | done v env =>
          obtain ⟨n, last, steps, returns⟩ := goes
          rcases returns.finish rfl with ⟨f, after, raised, limit⟩ | ⟨after, ended, result⟩
          · exact absurd limit (noLimit ⟨n, last, steps, raised⟩)
          · have inside : EndsAs (run host · first) (.done () after) :=
              steps.endsAs fun fuel => by rw [run, ended]
            exact ⟨after, resumes.endsAs inside, result⟩
      | fault cause shared =>
          obtain ⟨f, after, fails, same, rfl⟩ := goes
          exact ⟨f, _, resumes.endsAs fails.endsAs, same, rfl⟩
      | unfinished =>
          obtain ⟨n, last, bound, steps⟩ := goes
          exact fun fuel less => resumes.outlasts steps.outlasts fuel (by omega)
  · exact absurd limit (allowed (resumes.later 0))

end

theorem run_unique {host : Host} {n k : Nat} {m : Machine} (first : (m.run host n).isOver = true)
    (second : (m.run host k).isOver = true) : m.run host n = m.run host k := by
  induction n generalizing k m with
  | zero => exact absurd first Bool.false_ne_true
  | succ n ih =>
      cases k with
      | zero => exact absurd second Bool.false_ne_true
      | succ k =>
          rw [run] at first second ⊢
          rw [run]
          cases stepped : m.step host with
          | next after =>
              rw [stepped] at first second
              exact ih first second
          | _ => rfl

theorem Rests.unlimited {host : Host} {m : Machine} (rests : m.Rests) {r : Routine}
    (compiled : r.Compiled) (arity : r.arity = 0) {n : Nat} {after : Machine}
    (done : m.interpret host n r = .done () after) : m.Unlimited host r := by
  intro fuel f last raised
  obtain ⟨runs, unique, resumes⟩ : ∃ runs, (∀ {a b}, (runs a).isOver = true →
      (runs b).isOver = true → runs a = runs b) ∧ Resumes (interpret host · r m) runs m.height := by
    rcases rests.interpret_cases host compiled arity with
      ⟨first, -, resumes⟩ | ⟨g, other, -, resumes⟩
    · exact ⟨_, run_unique, resumes⟩
    · exact ⟨_, fun _ _ => rfl, resumes⟩
  have late : ∀ {k}, (m.interpret host k r).isOver = true →
      ∃ j, m.interpret host k r = (runs j).settle m.height ∧ (runs j).isOver = true := by
    intro k finished
    rcases Nat.lt_or_ge k 2 with early | late
    · rw [resumes.early k early] at finished
      exact absurd finished Bool.false_ne_true
    · obtain ⟨j, rfl⟩ := Nat.exists_eq_add_of_le' late
      have same : m.interpret host (j + 2) r = (runs j).settle m.height := resumes.later j
      refine ⟨j, same, ?_⟩
      rwa [same, Ending.isOver_settle] at finished
  obtain ⟨a, one, oneOver⟩ := late (show _ = true by rw [done]; rfl)
  obtain ⟨b, other, otherOver⟩ := late (show _ = true by rw [raised]; rfl)
  rw [unique oneOver otherOver, ← other, done, raised] at one
  exact absurd one nofun

/-- A stand-in with nothing of note on its stack, with which nothing else is new. -/
def blanked (m : Machine) : Machine :=
  m.prepare.withStack { live := Array.replicate m.height (.bool false), above := [] }

theorem values_blanked (m : Machine) : m.blanked.values = List.replicate m.height (.bool false) :=
  Array.toList_replicate

theorem blanked_rests {m : Machine} (globals : m.ProperGlobals) : m.blanked.Rests := by
  refine ⟨rfl, ?_, globals⟩
  intro v member
  rw [values_blanked] at member
  rw [List.eq_of_mem_replicate member]
  trivial

theorem twins_blanked (m : Machine) : Twins m.past m.blanked.past m.prepare m.blanked where
  level := by
    show m.values.length = m.blanked.values.length
    rw [values_blanked, List.length_replicate, length_values]
  frames := rfl
  globals := rfl
  maxFrames := rfl
  count := rfl
  world := rfl
  values := ⟨[], (List.append_nil _).symm, (List.append_nil _).symm⟩
  written := ⟨#[], Array.append_empty.symm, Array.append_empty.symm⟩
  trace := by
    have same : ∀ trace : Option (Array TraceEntry), trace = trace.map (· ++ #[]) := by
      intro trace
      simp
    exact ⟨#[], same _, same _⟩

theorem Starts.blanked {m first : Machine} {r : Routine} (starts : m.Starts r [] first) :
    ∃ other, m.blanked.Starts r [] other ∧ Twins m.past m.blanked.past first other ∧
      Rooted m.blanked.past.below.length other.frames := by
  obtain ⟨full, pushed, entered⟩ := starts
  have twins : Twins m.past m.blanked.past m.prepare m.blanked.prepare := m.twins_blanked
  obtain ⟨s, u, left, right, later⟩ | ⟨s, u, left, right, later⟩ := twins.pushAll [.routine r]
  · obtain rfl := Except.ok.inj (pushed.symm.trans left)
    obtain ⟨v, same, values⟩ := pushAll_eq right
    have values : (m.blanked.prepare.withStack u).values = m.blanked.values ++ [.routine r] := by
      rw [same]
      exact values
    have height : (m.blanked.prepare.withStack u).height - ([] : List Value).length - 1 =
        m.blanked.past.below.length := by
      rw [← length_values, values, List.length_append]
      rfl
    rw [enter] at entered
    split at entered
    · cases entered
    · rename_i arity
      split at entered
      · cases entered
      · rename_i room
        rw [later.height, later.frames, height] at entered
        rw [later.maxFrames, later.frames] at room
        obtain rfl := Step.next.inj entered
        refine ⟨_, ⟨_, right, ?_⟩, later.withFrames _, rfl⟩
        rw [enter, if_neg arity, if_neg room, height]
  · rw [left] at pushed
    cases pushed

theorem Steps.twins {host : Host} (honest : host.Honest) {p q : Past} {n : Nat} {a b last : Machine}
    (steps : Steps host n a last) (twins : Twins p q a b) (orderly : b.Orderly)
    (rooted : Rooted q.below.length b.frames) :
    ∃ other, Steps host n b other ∧ Twins p q last other := by
  induction steps generalizing b with
  | none => exact ⟨b, .none, twins⟩
  | more stepped others ih =>
      have same := step_twins honest twins orderly rooted
      have safe := step_orderly honest.serves orderly
      rw [stepped] at same
      cases next : b.step host with
      | next after =>
          rw [next] at same safe
          obtain ⟨other, more, later⟩ := ih same.1 safe same.2
          exact ⟨other, .more next more, later⟩
      | _ =>
          rw [next] at same
          exact same.elim

theorem Twins.shared {p q : Past} {a b : Machine} (twins : Twins p q a b)
    (same : p.written = q.written) : a.shared = b.shared := by
  obtain ⟨w, left, right⟩ := twins.written
  rw [Machine.shared, Machine.shared, twins.globals, twins.world, left, right, same]

theorem agrees_of_alike {m b : Machine} {left right : Ending Unit} {outcome : Outcome Value}
    {failed : Machine → Prop} (written : m.written = b.written)
    (alike : left.Alike m.past b.past (fun _ => b.Raised) failed right)
    (agrees : right.Agrees b.values outcome) : left.Agrees m.values outcome := by
  cases left <;> cases right <;> try exact alike.elim
  · cases outcome with
    | done v env =>
        obtain ⟨values, shared⟩ := agrees
        exact ⟨alike.2.1.raised values, (alike.2.1.shared written).trans shared⟩
    | fault cause shared => exact agrees.elim
    | unfinished => trivial
  · cases outcome with
    | done v env => exact agrees.elim
    | fault cause shared =>
        obtain ⟨same, shared⟩ := agrees
        exact ⟨alike.1 ▸ same, alike.1 ▸ (alike.2.1.shared written).trans shared⟩
    | unfinished => trivial
  · cases outcome with
    | unfinished => trivial
    | _ => exact agrees.elim
  · trivial

section

variable {host : Host} (honest : host.Honest) {m : Machine} (idle : m.isRunning = false)
  (globals : m.ProperGlobals)

include honest idle globals

theorem interpret_blanked (fuel : Nat) {r : Routine} (compiled : r.Compiled) :
    (m.interpret host fuel r).Alike m.past m.blanked.past (fun _ => m.blanked.Raised)
      m.blanked.Restored (m.blanked.interpret host fuel r) := by
  have same := (level honest fuel).interpret r m.twins_blanked (blanked_rests globals) compiled
  cases fuel with
  | zero => trivial
  | succ fuel =>
      rw [Machine.interpret, idle]
      exact same

omit idle in
/-- Whenever a run gets to a joint, the stack holds from the base of the innermost call on the function
and the locals in scope, and nothing else. -/
theorem height_at_joint {r : Routine} (compiled : r.Compiled) {n : Nat} {first state : Machine}
    (starts : m.Starts r [] first) (steps : Steps host n first state) {frame : Frame}
    {rest : List Frame} (frames : state.frames = frame :: rest) {unit : Nat} {isGlobal : Bool}
    {f : Function} (implements : Implements unit isGlobal frame.routine f) {joint : Joint}
    (member : joint ∈ f.joints frame.routine.constants unit isGlobal)
    (here : frame.ip = joint.offset) :
    state.height = frame.base + (joint.scope.length + 1) := by
  have none : ∀ v ∈ ([] : List Value), v.Proper := nofun
  obtain ⟨other, begins, twins, rooted⟩ := starts.blanked
  have orderly := (blanked_rests globals).orderly compiled none begins
  obtain ⟨last, more, later⟩ := steps.twins honest twins orderly rooted
  obtain ⟨inner, others, depth, within, p, ip, flows⟩ := more.orderly honest.serves orderly
  obtain ⟨rfl, -⟩ := List.cons.inj ((later.frames.symm.trans frames).symm.trans within.frames).symm
  obtain ⟨marked, carries⟩ := implements.carries
  obtain rfl := Int.ofNat.inj (ip.symm.trans here)
  rw [later.height, within.height, carries.depth_at_joint member flows]

theorem computes {r : Routine} {outcome : Nat → Outcome Value} (compiled : r.Compiled)
    (arity : r.arity = 0) (unlimited : m.Unlimited host r)
    (follows : ∀ depth first below, Call.At ⟨r, below, []⟩ 0 ⟨[], m.shared⟩ [] first →
      first.Tracks host depth (Call.Returns ⟨r, below, []⟩) (outcome depth)) :
    m.Computes host r outcome := by
  have alike := fun fuel => interpret_blanked honest idle globals fuel compiled
  have sameEnd : ∀ fuel, (m.interpret host fuel r).isOver = (m.blanked.interpret host fuel r).isOver := by
    intro fuel
    have same := alike fuel
    generalize m.interpret host fuel r = left at same ⊢
    generalize m.blanked.interpret host fuel r = right at same ⊢
    cases left <;> cases right <;> first | rfl | exact same.elim
  have shown : ∀ depth, (outcome depth).ShownBy (interpret host · r m.blanked) m.blanked.values depth := by
    intro depth
    refine (blanked_rests globals).shownBy compiled arity ?_ fun first => follows depth first _
    intro fuel f after raised
    have same := alike fuel
    rw [raised] at same
    cases ending : m.interpret host fuel r with
    | fault g before =>
        rw [ending] at same
        rw [← same.1]
        exact unlimited fuel g before ending
    | _ =>
        rw [ending] at same
        exact same.elim
  have written : m.written = m.blanked.written := rfl
  refine ⟨?_, fun fuel depth => agrees_of_alike written (alike fuel) ((shown depth).agrees fuel)⟩
  simp only [sameEnd]
  exact Outcome.ShownBy.ends shown

end

end Machine

end Reckoner
