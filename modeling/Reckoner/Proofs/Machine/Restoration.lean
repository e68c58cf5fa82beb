import Reckoner.Proofs.Machine.Twins

/-!
The stack of the host. A run takes nothing from the stack it finds and leaves one value there, or
nothing at all; what it met on the stack, or left in the cells above, has no part in what follows.
-/

namespace Reckoner

namespace Machine

variable {p q : Past} {a b : Machine}

theorem Twins.prepare (twins : Twins p q a b) : Twins p q a.prepare b.prepare :=
  { twins with frames := rfl, count := rfl }

theorem Twins.pushAll (twins : Twins p q a b) (vs : List Value) :
    (∃ s u, a.pushAll vs = .ok (a.withStack s) ∧ b.pushAll vs = .ok (b.withStack u) ∧
      Twins p q (a.withStack s) (b.withStack u)) ∨
    ∃ s u, a.pushAll vs = .error (a.withStack s) ∧ b.pushAll vs = .error (b.withStack u) ∧
      Twins p q (a.withStack s) (b.withStack u) := by
  induction vs generalizing a b with
  | nil => exact .inl ⟨a.stack, b.stack, rfl, rfl, twins⟩
  | cons v rest ih =>
      rw [Machine.pushAll, Machine.pushAll]
      by_cases room : b.HasRoom
      · rw [push_eq room, push_eq (twins.room.mpr room)]
        exact ih (twins.push v)
      · rw [Machine.push, Machine.push, if_pos (Nat.le_of_not_lt room),
          if_pos (Nat.le_of_not_lt fun other => room (twins.room.mp other))]
        exact .inr ⟨a.stack, b.stack, rfl, rfl, twins⟩

def Restored (before after : Machine) : Prop := after.Rests ∧ after.values = before.values

def Raised (before after : Machine) : Prop :=
  after.Rests ∧ ∃ v, after.values = before.values ++ [v]

theorem Rests.steady : Steady Rests where
  define m name v rests proper := ⟨rests.idle, rests.values, rests.globals.define proper name⟩
  push m v rests proper := by
    refine ⟨rests.idle, ?_, rests.globals⟩
    intro w member
    rw [Machine.values, withStack, Stack.values_push] at member
    rcases List.mem_append.mp member with old | new
    · exact rests.values w old
    · rw [List.mem_singleton.mp new]
      exact proper
  world m world rests := ⟨rests.idle, rests.values, rests.globals⟩

theorem values_abandon {before after : Machine} {t : List Value}
    (grown : after.values = before.values ++ t) (f : Fault) :
    (after.abandon f before.height).values = before.values := by
  have height : after.stack.height = before.height + t.length := by
    rw [← Stack.length_values, show after.stack.values = after.values from rfl, grown,
      List.length_append, length_values]
  have whole : (after.write .err f.report).stack.values = before.values ++ t := grown
  have top : (after.write .err f.report).stack.height = before.height + t.length := height
  rw [abandon, values]
  by_cases higher : before.height < (after.write .err f.report).height
  · dsimp only
    rw [if_pos higher, Stack.values_resize (by omega), whole, ← length_values, List.take_left]
  · have bound : ¬ before.height < before.height + t.length := by rw [← top]; exact higher
    have none : t = [] := List.eq_nil_of_length_eq_zero (by omega)
    dsimp only
    rw [if_neg higher, whole, none, List.append_nil]

theorem Twins.abandon {c d : Machine} (later : Twins a.past b.past c d)
    (proper : ∀ v ∈ b.values, v.Proper) (globals : d.ProperGlobals) (f : Fault) :
    Twins a.past b.past (c.abandon f a.height) (d.abandon f b.height) ∧
      b.Restored (d.abandon f b.height) := by
  obtain ⟨t, left, right⟩ := later.values
  have wrote := later.write .err f.report
  have kept : (d.abandon f b.height).values = b.values := values_abandon right f
  have twins : Twins a.past b.past (c.abandon f a.height) (d.abandon f b.height) :=
    { wrote with
      frames := rfl
      values := ⟨[], by rw [List.append_nil]; exact values_abandon left f,
        by rw [List.append_nil]; exact kept⟩ }
  refine ⟨twins, ⟨rfl, ?_, globals⟩, kept⟩
  rw [kept]
  exact proper

theorem Twins.isRunning (twins : Twins p q a b) : a.isRunning = b.isRunning := by
  rw [Machine.isRunning, Machine.isRunning, twins.frames]

theorem Rests.prepare (rests : b.Rests) : b.prepare.Rests := ⟨rfl, rests.values, rests.globals⟩

theorem Twins.raised (twins : Twins p q a b) {v : Value} (right : b.values = q.below ++ [v]) :
    a.values = p.below ++ [v] := by
  obtain ⟨t, left, other⟩ := twins.values
  rw [left, List.append_cancel_left (other.symm.trans right)]

theorem Twins.restored (twins : Twins p q a b) (right : b.values = q.below) : a.values = p.below := by
  obtain ⟨t, left, other⟩ := twins.values
  rw [left, List.append_right_eq_self.mp (other.symm.trans right), List.append_nil]

theorem Twins.rebaseEnding {α : Type} (twins : Twins p q a b) {done : α → Machine → Prop}
    {failed : Machine → Prop} {left right : Ending α}
    (alike : left.Alike a.past b.past done failed right) : left.Alike p q done failed right := by
  cases left <;> cases right <;> try exact alike.elim
  · exact ⟨alike.1, twins.rebase alike.2.1, alike.2.2⟩
  · exact ⟨alike.1, twins.rebase alike.2.1, alike.2.2⟩
  · exact alike
  · trivial

end Machine

theorem Ending.Alike.mono {α : Type} {p q : Machine.Past} {done done' : α → Machine → Prop}
    {failed failed' : Machine → Prop} {left right : Ending α}
    (alike : left.Alike p q done failed right) (dones : ∀ v m, done v m → done' v m)
    (faileds : ∀ m, failed m → failed' m) : left.Alike p q done' failed' right := by
  cases left <;> cases right <;> try exact alike.elim
  · exact ⟨alike.1, alike.2.1, dones _ _ alike.2.2⟩
  · exact ⟨alike.1, alike.2.1, faileds _ alike.2.2⟩
  · exact alike
  · trivial

def Step.Settles (p q : Machine.Past) (answered : Machine → Prop) : Step → Step → Prop
  | .next a, .next b => a.Twins p q b ∧ answered b
  | .fault f a, .fault g b => f = g ∧ a.Twins p q b ∧ b.ProperGlobals
  | .crash reason _, .crash other _ => reason = other
  | .exhausted _, .exhausted _ => True
  | _, _ => False

namespace Machine

section

variable (host : Host) (fuel : Nat)

/-- What runs on twins with the given fuel come to: they keep the stack, and they end alike. -/
structure Level : Prop where
  invoke : ∀ {a b : Machine} (callee : Value) (args : List Value), Twins a.past b.past a b → b.Rests →
    callee.Proper → (∀ v ∈ args, v.Proper) →
    (invoke host fuel callee args a).Alike a.past b.past (fun _ => b.Raised) ProperGlobals
      (invoke host fuel callee args b)
  callGlobal : ∀ {p q : Past} {a b : Machine} (name : String) (args : List Value), Twins p q a b →
    b.Rests → (∀ v ∈ args, v.Proper) →
    (callGlobal host fuel name args a).Alike p q (fun v after => v.Proper ∧ b.Restored after) b.Restored
      (callGlobal host fuel name args b)
  interpret : ∀ {p q : Past} {a b : Machine} (r : Routine), Twins p q a b → b.Rests → r.Compiled →
    (interpret host fuel r a).Alike p q (fun _ => b.Raised) b.Restored (interpret host fuel r b)

end

section

variable {host : Host} {fuel : Nat}

theorem Level.callGlobal_succ (level : Level host fuel) (name : String)
    (args : List Value) (twins : Twins p q a b) (rests : b.Rests) (propers : ∀ v ∈ args, v.Proper) :
    (Machine.callGlobal host (fuel + 1) name args a).Alike p q
      (fun v after => v.Proper ∧ b.Restored after) b.Restored
      (Machine.callGlobal host (fuel + 1) name args b) := by
  refine twins.rebaseEnding ?_
  have still : ¬b.isRunning = true := Bool.eq_false_iff.mp rests.idle
  rw [Machine.callGlobal, Machine.callGlobal, twins.isRunning, if_neg still, if_neg still,
    twins.global?]
  cases found : b.global? name with
  | none => exact ⟨twins.faultOf _, twins.own, rests, rfl⟩
  | some callee =>
      have alike := level.invoke callee args twins.prepare.own rests.prepare
        (rests.globals name callee found) propers
      dsimp only
      generalize Machine.invoke host fuel callee args a.prepare = one at alike ⊢
      generalize Machine.invoke host fuel callee args b.prepare = other at alike ⊢
      cases one <;> cases other <;> try exact alike.elim
      · obtain ⟨-, later, rested, v, right⟩ := alike
        have left := later.raised right
        dsimp only
        rw [pop_eq left, pop_eq right]
        have proper : v.Proper := rested.values v (by rw [right]; simp)
        have kept := Stack.values_below right v
        refine ⟨rfl, later.withStack (t := []) ?_ ?_, proper, ⟨rested.idle, ?_, rested.globals⟩, kept⟩
        · rw [List.append_nil]
          exact Stack.values_below left v
        · rw [List.append_nil]
          exact kept
        · intro w member
          rw [Machine.values, withStack, kept] at member
          exact rests.values w member
      · obtain ⟨rfl, later, globals⟩ := alike
        exact ⟨rfl, later.abandon rests.values globals _⟩
      · exact alike
      · trivial

theorem Level.interpret_succ (level : Level host fuel) (r : Routine)
    (twins : Twins p q a b) (rests : b.Rests) (compiled : r.Compiled) :
    (Machine.interpret host (fuel + 1) r a).Alike p q (fun _ => b.Raised) b.Restored
      (Machine.interpret host (fuel + 1) r b) := by
  refine twins.rebaseEnding ?_
  have still : ¬b.isRunning = true := Bool.eq_false_iff.mp rests.idle
  rw [Machine.interpret, Machine.interpret, twins.isRunning, if_neg still, if_neg still]
  have alike := level.invoke (.routine r) [] twins.prepare.own rests.prepare compiled
    (List.forall_mem_nil _)
  generalize Machine.invoke host fuel (.routine r) [] a.prepare = one at alike ⊢
  generalize Machine.invoke host fuel (.routine r) [] b.prepare = other at alike ⊢
  cases one <;> cases other <;> try exact alike.elim
  · exact ⟨rfl, alike.2⟩
  · obtain ⟨rfl, later, globals⟩ := alike
    exact ⟨rfl, later.abandon rests.values globals _⟩
  · exact alike
  · trivial

end

section

variable {host : Host} (honest : host.Honest)

include honest

theorem Twins.callIdle {fuel : Nat} (level : Level host fuel) {a b c d : Machine} {n : Native}
    {args : List Value} (twins : Twins a.past b.past c d) (rests : d.Rests)
    (propers : ∀ v ∈ args, v.Proper) (left : c.values = a.values ++ .native n :: args)
    (right : d.values = b.values ++ .native n :: args) :
    let perform := fun n args m =>
      (host n args).perform (Machine.callGlobal host fuel) (Machine.interpret host fuel) m
    (c.callNative perform n args.length).Settles a.past b.past b.Raised
      (d.callNative perform n args.length) := by
  intro perform
  rw [Machine.callNative, Machine.callNative]
  by_cases arity : n.arity ≠ args.length
  · rw [if_pos arity, if_pos arity]
    exact ⟨twins.faultOf _, twins, rests.globals⟩
  · rw [if_neg arity, if_neg arity]
    dsimp only
    rw [Stack.top_eq (left.trans (List.append_cons ..)) rfl,
      Stack.top_eq (right.trans (List.append_cons ..)) rfl, twins.height]
    have alike : (perform n args c).Alike c.past d.past (fun v after => v.Proper ∧ after.Rests) Rests
        (perform n args d) := by
      refine perform_alike Rests.steady ?_ ?_ (honest n args propers) twins.own rests
      · intro name args x y propers twins rests
        exact (level.callGlobal name args twins rests propers).mono
          (fun v after good => ⟨good.1, good.2.1⟩) fun after good => good.1
      · intro r x y compiled twins rests
        exact (level.interpret r twins rests compiled).mono (fun _ after good => good.1)
          fun after good => good.1
    generalize perform n args c = one at alike ⊢
    generalize perform n args d = other at alike ⊢
    cases one <;> cases other <;> try exact alike.elim
    · rename_i v x w y
      obtain ⟨rfl, later, proper, rested⟩ := alike
      -- Whatever the native left on the stack is cut off together with its arguments.
      obtain ⟨extra, -, grown⟩ := later.values
      have whole : y.stack.values = b.values ++ (.native n :: args ++ extra) := by
        rw [← List.append_assoc, ← right]
        exact grown
      have height : d.height - args.length - 1 = b.values.length := by
        rw [← length_values, right, List.length_append, List.length_cons]
        omega
      have bound : b.values.length ≤ y.height := by
        rw [← length_values, show y.values = y.stack.values from rfl, whole, List.length_append]
        omega
      have lowered : Twins a.past b.past (x.withStack (x.stack.resize b.values.length))
          (y.withStack (y.stack.resize b.values.length)) :=
        (twins.rebase later).resize (Nat.le_refl _) bound
      have cut : (y.stack.resize b.values.length).values = b.values := by
        rw [Stack.values_resize bound, whole, List.take_left]
      have below : (y.withStack (y.stack.resize b.values.length)).Rests := by
        refine ⟨rested.idle, ?_, rested.globals⟩
        intro w member
        rw [Machine.values, Machine.withStack, cut] at member
        exact rests.values w (by rw [right]; exact List.mem_append_left _ member)
      rw [height]
      show ((x.withStack (x.stack.resize b.values.length)).pushOn v).Settles a.past b.past b.Raised
        ((y.withStack (y.stack.resize b.values.length)).pushOn v)
      by_cases room : (y.withStack (y.stack.resize b.values.length)).HasRoom
      · rw [pushOn_eq room, pushOn_eq (lowered.room.mpr room)]
        refine ⟨lowered.push v, Rests.steady.push _ v below proper, v, ?_⟩
        exact (Stack.values_push _ v).trans (congrArg (· ++ [v]) cut)
      · rw [pushOn_full room, pushOn_full fun full => room (lowered.room.mp full)]
        exact ⟨lowered.faultOf _, lowered, rested.globals⟩
    · obtain ⟨rfl, later, rested⟩ := alike
      exact ⟨rfl, twins.rebase later, rested.globals⟩
    · exact alike
    · trivial

theorem Twins.callRoutine {a b c d : Machine} {r : Routine} {args : List Value} (fuel : Nat)
    (twins : Twins a.past b.past c d) (rests : d.Rests) (compiled : r.Compiled)
    (right : d.values = b.values ++ .routine r :: args) :
    (match c.enter r args.length with
      | .next m => m.run host fuel
      | .finished m => .done () m
      | .fault f m => .fault f m
      | .crash reason m => .crash reason m
      | .exhausted m => .exhausted m).Alike a.past b.past (fun _ => b.Raised) ProperGlobals
    (match d.enter r args.length with
      | .next m => m.run host fuel
      | .finished m => .done () m
      | .fault f m => .fault f m
      | .crash reason m => .crash reason m
      | .exhausted m => .exhausted m) := by
  have idle : d.frames = [] := by simpa [Machine.isRunning] using rests.idle
  have height : d.height = b.values.length + (args.length + 1) := by
    rw [← length_values, right, List.length_append, List.length_cons]
  rw [Machine.enter, Machine.enter]
  by_cases arity : r.arity ≠ args.length
  · rw [if_pos arity, if_pos arity]
    exact ⟨twins.faultOf _, twins, rests.globals⟩
  · rw [if_neg arity, if_neg arity]
    by_cases deep : d.maxFrames ≤ d.frames.length
    · rw [if_pos deep, if_pos (by rw [twins.maxFrames, twins.frames]; exact deep)]
      exact ⟨twins.faultOf _, twins, rests.globals⟩
    · rw [if_neg deep, if_neg (by rw [twins.maxFrames, twins.frames]; exact deep)]
      dsimp only
      rw [twins.height, twins.frames, idle, show d.height - args.length - 1 = b.values.length by omega]
      have entered := twins.withFrames [{ routine := r, ip := 0, base := b.values.length, last := 0 }]
      have orderly : Orderly
          { d with frames := [{ routine := r, ip := 0, base := b.values.length, last := 0 }] } :=
        ⟨_, [], args.length + 1, ⟨rfl, height, rests.values, rests.globals, compiled, trivial⟩, 0, rfl,
          .start (Decidable.not_not.mp arity)⟩
      exact run_twins honest entered orderly rfl fuel

theorem Level.invoke_succ {fuel : Nat} (level : Level host fuel) {a b : Machine} (callee : Value)
    (args : List Value) (twins : Twins a.past b.past a b) (rests : b.Rests) (proper : callee.Proper)
    (propers : ∀ v ∈ args, v.Proper) :
    (Machine.invoke host (fuel + 1) callee args a).Alike a.past b.past (fun _ => b.Raised)
      ProperGlobals (Machine.invoke host (fuel + 1) callee args b) := by
  rw [Machine.invoke, Machine.invoke]
  obtain ⟨s, u, left, right, pushed⟩ | ⟨s, u, left, right, pushed⟩ := twins.pushAll (callee :: args)
  · rw [left, right]
    have lower : s.values = a.values ++ callee :: args := by
      obtain ⟨t, same, values⟩ := pushAll_eq left
      rw [← values]
      exact congrArg (fun m : Machine => m.stack.values) same
    have upper : u.values = b.values ++ callee :: args := by
      obtain ⟨t, same, values⟩ := pushAll_eq right
      rw [← values]
      exact congrArg (fun m : Machine => m.stack.values) same
    have rested : (b.withStack u).Rests := by
      refine ⟨rests.idle, ?_, rests.globals⟩
      intro v member
      rw [Machine.values, withStack, upper] at member
      rcases List.mem_append.mp member with old | new
      · exact rests.values v old
      · rcases List.mem_cons.mp new with rfl | arg
        · exact proper
        · exact propers v arg
    cases callee with
    | routine r =>
        have alike := Twins.callRoutine honest fuel pushed rested proper upper
        dsimp only [Machine.callValue] at alike ⊢
        generalize (a.withStack s).enter r args.length = one at alike ⊢
        generalize (b.withStack u).enter r args.length = other at alike ⊢
        cases one <;> cases other <;> exact alike
    | native n =>
        have settles := Twins.callIdle honest level pushed rested propers lower upper
        dsimp only [Machine.callValue] at settles ⊢
        generalize (a.withStack s).callNative _ n args.length = one at settles ⊢
        generalize (b.withStack u).callNative _ n args.length = other at settles ⊢
        cases one <;> cases other <;> try exact settles.elim
        · exact ⟨rfl, settles⟩
        · exact settles
        · exact settles
        · trivial
    | _ => exact ⟨pushed.faultOf _, pushed, rests.globals⟩
  · rw [left, right]
    exact ⟨pushed.faultOf _, pushed, rests.globals⟩

theorem level (fuel : Nat) : Level host fuel := by
  induction fuel with
  | zero => exact ⟨fun _ _ _ _ _ _ => trivial, fun _ _ _ _ _ => trivial, fun _ _ _ _ => trivial⟩
  | succ fuel ih =>
      exact ⟨ih.invoke_succ honest, ih.callGlobal_succ, ih.interpret_succ⟩

end

def anew (m : Machine) : Machine := m.duplicate.withStack { live := m.stack.live, above := [] }

def standIn (m : Machine) : Machine :=
  { m.duplicate with
    stack := { live := Array.replicate m.height (.bool false), above := [] }
    trace := some #[] }

theorem values_standIn (m : Machine) : m.standIn.values = List.replicate m.height (.bool false) :=
  Array.toList_replicate

theorem standIn_rests {m : Machine} (globals : m.ProperGlobals) : m.standIn.Rests := by
  refine ⟨rfl, ?_, globals⟩
  intro v member
  rw [values_standIn] at member
  rw [List.eq_of_mem_replicate member]
  trivial

theorem twins_standIn (m : Machine) : Twins m.past m.standIn.past m.prepare m.standIn where
  level := by
    show m.values.length = m.standIn.values.length
    rw [values_standIn, List.length_replicate, length_values]
  frames := rfl
  globals := rfl
  maxFrames := rfl
  count := rfl
  world := rfl
  values := ⟨[], (List.append_nil _).symm, (List.append_nil _).symm⟩
  written := ⟨#[], Array.append_empty.symm, Array.append_empty.symm⟩
  trace := ⟨#[], by simp [past, Machine.prepare], rfl⟩

theorem Twins.join {r : Past} {c : Machine} {e : Array TraceEntry} (left : Twins p r a c)
    (right : Twins q r b c) (traced : r.trace = some e) : Twins p q a b := by
  obtain ⟨t, values, same⟩ := left.values
  obtain ⟨u, others, again⟩ := right.values
  obtain ⟨w, wrote, written⟩ := left.written
  obtain ⟨x, wroteToo, writtenToo⟩ := right.written
  obtain ⟨f, noted, trace⟩ := left.trace
  obtain ⟨g, notedToo, traceToo⟩ := right.trace
  obtain rfl := List.append_cancel_left (same.symm.trans again)
  obtain rfl := (Array.append_right_inj _).mp (written.symm.trans writtenToo)
  rw [traced] at trace traceToo
  obtain rfl := (Array.append_right_inj _).mp (Option.some.inj (trace.symm.trans traceToo))
  exact {
    level := left.level.trans right.level.symm
    frames := left.frames.trans right.frames.symm
    globals := left.globals.trans right.globals.symm
    maxFrames := left.maxFrames.trans right.maxFrames.symm
    count := left.count.trans right.count.symm
    world := left.world.trans right.world.symm
    values := ⟨t, values, others⟩
    written := ⟨w, wrote, wroteToo⟩
    trace := ⟨f, noted, notedToo⟩ }

section

variable {host : Host} (honest : host.Honest) {m : Machine} (idle : m.isRunning = false)
  (globals : m.ProperGlobals)

include honest idle globals

theorem interpret_standIn (fuel : Nat) {r : Routine} (compiled : r.Compiled) :
    (m.interpret host fuel r).Alike m.past m.standIn.past (fun _ => m.standIn.Raised)
      m.standIn.Restored (m.standIn.interpret host fuel r) := by
  have same := (level honest fuel).interpret r m.twins_standIn (standIn_rests globals) compiled
  cases fuel with
  | zero => trivial
  | succ fuel =>
      rw [Machine.interpret, idle]
      exact same

theorem callGlobal_standIn (fuel : Nat) {name : String} {args : List Value}
    (propers : ∀ v ∈ args, v.Proper) (defined : m.global? name ≠ none) :
    (m.callGlobal host fuel name args).Alike m.past m.standIn.past
      (fun v after => v.Proper ∧ m.standIn.Restored after) m.standIn.Restored
      (m.standIn.callGlobal host fuel name args) := by
  have same := (level honest fuel).callGlobal name args m.twins_standIn (standIn_rests globals) propers
  cases fuel with
  | zero => trivial
  | succ fuel =>
      obtain ⟨callee, found⟩ := Option.ne_none_iff_exists'.mp defined
      have still : ¬m.isRunning = true := Bool.eq_false_iff.mp idle
      have rests : ¬m.prepare.isRunning = true := Bool.false_ne_true
      rw [Machine.callGlobal, if_neg rests, show m.prepare.global? name = some callee from found] at same
      rw [Machine.callGlobal, if_neg still, found]
      exact same

end

end Machine

theorem Ending.Alike.join {α : Type} {p q r : Machine.Past} {e : Array TraceEntry}
    {done : α → Machine → Prop} {failed : Machine → Prop} {left right third : Ending α}
    (one : left.Alike p r done failed third) (other : right.Alike q r done failed third)
    (traced : r.trace = some e) : left.Alike p q (fun _ _ => True) (fun _ => True) right := by
  cases left <;> cases third <;> try exact one.elim
  · cases right <;> try exact other.elim
    exact ⟨one.1.trans other.1.symm, one.2.1.join other.2.1 traced, trivial⟩
  · cases right <;> try exact other.elim
    exact ⟨one.1.trans other.1.symm, one.2.1.join other.2.1 traced, trivial⟩
  · cases right <;> try exact other.elim
    exact Eq.trans one (Eq.symm other)
  · cases right <;> try exact other.elim
    trivial

/-- A machine that nothing is running on, and on which whatever is run next goes as on a machine set
up anew. -/
structure Machine.Ready (host : Host) (m : Machine) : Prop where
  idle : m.isRunning = false
  interpret : ∀ fuel r, r.Compiled →
    (m.interpret host fuel r).Alike m.past m.anew.past (fun _ _ => True) (fun _ => True)
      (m.anew.interpret host fuel r)
  callGlobal : ∀ fuel name args, (∀ v ∈ args, v.Proper) → m.global? name ≠ none →
    (m.callGlobal host fuel name args).Alike m.past m.anew.past (fun _ _ => True) (fun _ => True)
      (m.anew.callGlobal host fuel name args)
  undefined : ∀ fuel name args, m.global? name = none → ∃ f,
    m.callGlobal host (fuel + 1) name args = .fault f m ∧
      m.anew.callGlobal host (fuel + 1) name args = .fault f m.anew

theorem Machine.ready {host : Host} (honest : host.Honest) {m : Machine} (idle : m.isRunning = false)
    (globals : m.ProperGlobals) : m.Ready host where
  idle
  interpret fuel r compiled :=
    (interpret_standIn honest idle globals fuel compiled).join
      (interpret_standIn (m := m.anew) honest rfl globals fuel compiled) rfl
  callGlobal fuel name args propers defined :=
    (callGlobal_standIn honest idle globals fuel propers defined).join
      (callGlobal_standIn (m := m.anew) honest rfl globals fuel propers defined) rfl
  undefined fuel name args missing := by
    have still : ¬m.isRunning = true := Bool.eq_false_iff.mp idle
    have frames : m.frames = [] := by simpa [Machine.isRunning] using idle
    refine ⟨m.faultOf (.undefinedVariable name), ?_, ?_⟩
    · rw [Machine.callGlobal, if_neg still, missing]
    · have rests : ¬m.anew.isRunning = true := Bool.false_ne_true
      rw [Machine.callGlobal, if_neg rests, show m.anew.global? name = none from missing]
      dsimp only
      rw [Machine.faultOf, Machine.faultOf, frames]
      rfl

theorem Machine.Twins.ready {host : Host} (honest : host.Honest) {p q : Past} {a b : Machine}
    (twins : Twins p q a b) (rests : b.Rests) : a.Ready host := by
  refine Machine.ready honest (twins.isRunning.trans rests.idle) ?_
  intro name v found
  rw [twins.global?] at found
  exact rests.globals name v found

/-- A run ends with a machine that is ready for the next one, and with the given stack. -/
def Ending.Leaves {α : Type} (host : Host) (done failed : List Value → Prop) : Ending α → Prop
  | .done _ m => done m.values ∧ m.Ready host
  | .fault _ m => failed m.values ∧ m.Ready host
  | .crash _ _ | .exhausted _ => True

/-- The host finds its stack as it left it. A script that ends adds its value and nothing else; a call
that ends, and a script or a call that fails, however deep in whatever calls, adds and takes nothing.
Nothing is left running, and what the host runs next goes as on a machine set up anew. -/
theorem host_stack_restored {host : Host} (honest : host.Honest) {m : Machine}
    (idle : m.isRunning = false) (globals : m.ProperGlobals) :
    (∀ fuel r, r.Compiled → (m.interpret host fuel r).Leaves host
      (fun values => ∃ v, values = m.values ++ [v]) (· = m.values)) ∧
    ∀ fuel name args, (∀ v ∈ args, v.Proper) → (m.callGlobal host fuel name args).Leaves host
      (· = m.values) (· = m.values) := by
  constructor
  · intro fuel r compiled
    have alike := Machine.interpret_standIn honest idle globals fuel compiled
    generalize m.interpret host fuel r = left at alike ⊢
    generalize m.standIn.interpret host fuel r = right at alike
    cases left <;> cases right <;> try exact alike.elim
    · obtain ⟨-, later, rested, v, values⟩ := alike
      exact ⟨⟨v, later.raised values⟩, later.ready honest rested⟩
    · obtain ⟨-, later, rested, values⟩ := alike
      exact ⟨later.restored values, later.ready honest rested⟩
    · trivial
    · trivial
  · intro fuel name args propers
    by_cases missing : m.global? name = none
    · cases fuel with
      | zero => trivial
      | succ fuel =>
          have ready := Machine.ready honest idle globals
          obtain ⟨f, failed, -⟩ := ready.undefined fuel name args missing
          rw [failed]
          exact ⟨rfl, ready⟩
    · have alike := Machine.callGlobal_standIn honest idle globals fuel propers missing
      generalize m.callGlobal host fuel name args = left at alike ⊢
      generalize m.standIn.callGlobal host fuel name args = right at alike
      cases left <;> cases right <;> try exact alike.elim
      · obtain ⟨-, later, -, rested, values⟩ := alike
        exact ⟨later.restored values, later.ready honest rested⟩
      · obtain ⟨-, later, rested, values⟩ := alike
        exact ⟨later.restored values, later.ready honest rested⟩
      · trivial
      · trivial

theorem Host.standard_honest : Host.standard.Honest := by
  intro n args _
  rw [Host.standard]
  split
  · exact fun d => trivial
  · exact fun d => trivial
  · trivial

def Ending.faults {α : Type} (test : Fault → Machine → Bool) : Ending α → Bool
  | .fault f m => test f m
  | _ => false

theorem exists_fault {ε : Type} {compiled : Except ε Routine} {runs : Routine → Ending Unit}
    {test : Fault → Machine → Bool}
    (passed : (compiled.toOption.any fun r => (runs r).faults test) = true) :
    ∃ r f after, compiled = .ok r ∧ runs r = .fault f after ∧ test f after = true := by
  cases compiled with
  | error _ => exact absurd passed Bool.false_ne_true
  | ok r =>
      have ended : (runs r).faults test = true := passed
      generalize endingEq : runs r = ending at ended
      cases ending with
      | fault f after => exact ⟨r, f, after, rfl, endingEq, ended⟩
      | _ => exact absurd ended Bool.false_ne_true

/-- A fault two calls deep, above a value that no script can make. -/
theorem host_stack_restored_nested :
    let m := (Machine.new 0 ⟨0, 0⟩).withStack { live := #[.foreign], above := [] }
    ∃ r f after, compile 0 "fn g(x) = x + true; fn f(x) = 1 + g(x); f(2);" = .ok r ∧
      m.interpret Host.standard 100 r = .fault f after ∧ after.values = [.foreign] := by
  intro m
  obtain ⟨r, f, after, compiled, fault, -⟩ := exists_fault (show
    ((compile 0 "fn g(x) = x + true; fn f(x) = 1 + g(x); f(2);").toOption.any fun r =>
      (m.interpret Host.standard 100 r).faults fun _ _ => true) = true by decide +kernel)
  have leaves := (host_stack_restored Host.standard_honest (m := m) rfl
    (Machine.new_rests 0 ⟨0, 0⟩).globals).1 100 r ⟨0, _, r, .inl compiled, .self⟩
  rw [fault] at leaves
  exact ⟨r, f, after, compiled, fault, leaves.1⟩

end Reckoner
