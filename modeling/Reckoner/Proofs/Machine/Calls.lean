import Reckoner.Proofs.Machine.Operations

/-!
Calls. A routine that is called runs in a call of its own, on top of the values its caller waits with;
its result takes the place of the callee and the arguments, as the answer of a native does.
-/

namespace Reckoner

open Script

def Ending.Replies (reply : Except Cause Value × Shared) : Ending Value → Prop
  | .done v m => reply = (.ok v, m.shared)
  | .fault f m => reply = (.error f.cause, m.shared)
  | _ => False

/-- The library tells the trees that routines were compiled from, what is stored in their constants,
and how the natives of a host answer, for which arguments and shared things have to be enough. -/
structure Script.Library.Sound (library : Library) (host : Host) : Prop where
  program : ∀ r, r.Compiled → ∃ unit,
    Implements unit (library.program r).isGlobal r (library.program r).function
  literal : ∀ r d e, r.constants[Pool.find r.constants (.number d)]? = some (.number e) →
    library.literal r d = e
  inner : ∀ r f q, r.constants[Pool.findRoutine r.constants ⟨r.identity.unit, f.index⟩]? =
    some (.routine q) → library.inner r f = .routine q
  native : ∀ n args m, (∀ v ∈ args, v.Proper) → m.ProperGlobals →
    (Machine.performBusy host n args m).Replies (library.native n args m.shared)

namespace Call

/-- The call is about to return a value, whatever locals it still has. -/
def Returns (c : Call) (v : Value) (env : Environment) (m : Machine) : Prop :=
  ∃ p inner, c.routine.Has p ⟨.return, 0⟩ ∧ inner.shared = env.shared ∧ c.At p inner [v] m

end Call

def Script.Level.Bodies (level : Level) (library : Library) (host : Host) (least : Nat) : Prop :=
  ∀ c env m, c.routine.Compiled →
    env.names = (library.program c.routine).function.scope → Call.At c 0 env [] m →
    m.Tracks host least c.Returns (level.body c.routine env)

/-- What a machine needs to follow calls: natives that serve a run, and a level that fits the library. -/
structure Script.Level.Calls (level : Level) (library : Library) (host : Host) (least : Nat) :
    Prop where
  serves : host.Serves
  sound : library.Sound host
  bodies : level.Bodies library host least

namespace Call

variable {c caller : Call} {p q : Nat} {env after : Environment} {temps : List Value} {v : Value}
  {m : Machine} {host : Host} {least : Nat}

theorem At.proper (start : c.At p env temps m) {w : Value} (member : w ∈ temps) : w.Proper := by
  obtain ⟨frame, rest, depth, within, -⟩ := start.orderly
  refine within.values w ?_
  rw [start.values]
  exact List.mem_append_right _ member

theorem At.globals (start : c.At p env temps m) : m.ProperGlobals := by
  obtain ⟨frame, rest, depth, within, -⟩ := start.orderly
  exact within.globals

theorem Returns.leave (serves : host.Serves) (returns : c.Returns v after m)
    (around : ∃ last, c.around =
      ⟨caller.routine, q, caller.below.length, last⟩ :: caller.around)
    (below : c.below = caller.ground env ++ temps) :
    m.Tracks host least (caller.Yields q env.names temps)
      (.done v { env with shared := after.shared }) := by
  obtain ⟨p, last, has, shared, start⟩ := returns
  rw [← shared]
  obtain ⟨frame, inner, stepped, inside⟩ := start.fetch host has
  obtain ⟨held, frames, base⟩ : ∃ held : Frame,
      inner.frames = held :: c.around ∧ held.base = c.below.length := by
    obtain ⟨last, frames⟩ := inside.frames
    exact ⟨_, frames, rfl⟩
  obtain ⟨before, surrounding⟩ := around
  have whole : inner.values = (c.ground last) ++ [v] := inside.values
  have result : (m.step host).Shows
      (fun w e last => e.names = env.names ∧ caller.Placed q e (temps ++ [w]) last)
      (.done v { env with shared := last.shared }) := by
    have executed : Machine.execute host inner frame .return 0 = inner.leave := rfl
    rw [stepped, executed]
    have bound : held.base ≤ (c.ground last).length := by
      rw [base, ground, List.length_append]
      omega
    have kept := Machine.values_handed held c.around whole bound
    rw [base, ground, List.take_left' rfl, below] at kept
    by_cases room : (inner.handed held c.around v).HasRoom
    · rw [Machine.leave_room frames whole room, surrounding]
      refine ⟨v, _, rfl, rfl, ⟨before, ?_⟩, ?_, inside.shared⟩
      · rfl
      · rw [surrounding] at kept
        rw [Machine.values, Machine.withStack, Stack.values_push, ← List.append_assoc]
        exact congrArg (· ++ [v]) kept
    · rw [Machine.leave_full frames whole room]
      exact .inl rfl
  exact (Machine.Tracks.of_step serves start.orderly result).mono
    fun w e last known => ⟨known.1.1, known.1.2, known.2⟩

theorem bindAll_values {parameters : List String} {args : List Value}
    (lengths : parameters.length = args.length) (shared : Shared) :
    Environment.values ⟨bindAll parameters args, shared⟩ = args := by
  rw [Environment.values, bindAll, List.map_reverse, List.reverse_reverse,
    List.map_snd_zip (Nat.le_of_eq lengths.symm)]

theorem bindAll_names {parameters : List String} {args : List Value}
    (lengths : parameters.length = args.length) (shared : Shared) :
    Environment.names ⟨bindAll parameters args, shared⟩ = parameters.reverse := by
  rw [Environment.names, bindAll, List.map_reverse, List.map_fst_zip (Nat.le_of_eq lengths)]

section

variable {library : Library} {level : Level} {args : List Value}
  (calls : level.Calls library host least)

include calls

theorem At.enter {r : Routine} (start : c.At p env (temps ++ .routine r :: args) m)
    (has : c.routine.Has p ⟨.call, args.length⟩) :
    m.Tracks host (least + 1) (c.Yields (p + 2) env.names temps)
      (apply library level (.routine r) args env) := by
  obtain ⟨frame, inner, stepped, inside⟩ := start.fetch host has
  have executed : m.step host = inner.enter r args.length :=
    stepped.trans (inside.peekThen _)
  by_cases arity : r.arity = args.length
  · by_cases deep : inner.maxFrames ≤ inner.frames.length
    · refine .inl ⟨inner.faultOf .callDepth, inner, ⟨0, m, .none, ?_⟩, rfl⟩
      rw [executed, Machine.enter, if_neg (not_not_intro arity), if_pos deep, Machine.raise]
    · have compiled : r.Compiled :=
        start.proper (w := .routine r) (List.mem_append_right _ List.mem_cons_self)
      obtain ⟨unit, implements⟩ := calls.sound.program r compiled
      obtain ⟨marked, carries⟩ := implements.carries
      have lengths : (library.program r).function.parameters.length = args.length :=
        Int.ofNat.inj (carries.arity.symm.trans arity)
      have height : inner.height - args.length - 1 = (c.ground env ++ temps).length := by
        rw [inside.height, List.length_append, List.length_append, List.length_cons]
        omega
      obtain ⟨next, entered, frames, values, shared⟩ : ∃ next, m.step host = .next next ∧
          next.frames = ⟨r, 0, (c.ground env ++ temps).length, 0⟩ :: inner.frames ∧
          next.values = inner.values ∧ next.shared = inner.shared := by
        rw [executed, Machine.enter, if_neg (not_not_intro arity), if_neg deep, height]
        exact ⟨_, rfl, rfl, rfl, rfl⟩
      have steps := Machine.Steps.one entered
      let called : Call := { routine := r, below := c.ground env ++ temps, around := inner.frames }
      have first : called.At 0
          ⟨bindAll (library.program r).function.parameters args, env.shared⟩ [] next := by
        refine ⟨⟨⟨0, frames⟩, ?_, shared.trans inside.shared⟩,
          steps.orderly calls.serves start.orderly⟩
        rw [ground, bindAll_values lengths, List.append_nil]
        show next.values = c.ground env ++ temps ++ .routine r :: args
        rw [values, inside.values, List.append_assoc]
      rw [apply, if_neg (not_not_intro arity)]
      have body := calls.bodies called _ _ compiled (bindAll_names lengths env.shared) first
      refine .afterStep steps ?_
      refine body.andThen fun v after last returns => ?_
      exact returns.leave calls.serves inside.frames rfl
  · have raised : (m.step host).Shows
        (fun w e last => e.names = env.names ∧ c.Placed (p + 2) e (temps ++ [w]) last)
        (.fault (.arity r.arity args.length) env.shared) := by
      rw [executed, Machine.enter, if_pos arity]
      exact inside.raise _
    rw [apply, if_pos arity]
    exact (Machine.Tracks.of_step calls.serves start.orderly raised).mono
      fun w e last known => ⟨known.1.1, known.1.2, known.2⟩

theorem At.callNative {n : Native} (start : c.At p env (temps ++ .native n :: args) m)
    (has : c.routine.Has p ⟨.call, args.length⟩) :
    m.Tracks host (least + 1) (c.Yields (p + 2) env.names temps)
      (apply library level (.native n) args env) := by
  refine start.value calls.serves has fun frame inner inside => ?_
  have whole : inner.values = (c.ground env ++ temps ++ [.native n]) ++ args := by
    rw [inside.values]
    simp
  have called : Machine.execute host inner frame .call args.length =
      inner.callNative (Machine.performBusy host) n args.length := inside.peekThen _
  rw [called, Machine.callNative, apply]
  by_cases arity : n.arity = args.length
  · have propers : ∀ w ∈ args, w.Proper := fun w member =>
      start.proper (List.mem_append_right _ (List.mem_cons_of_mem _ member))
    have globals : inner.ProperGlobals := by
      intro name w found
      refine start.globals name w ?_
      have same : inner.shared = m.shared := inside.shared.trans start.shared.symm
      rwa [Machine.global?, show inner.globals = m.globals from congrArg Shared.globals same] at found
    have replies := calls.sound.native n args inner propers globals
    rw [if_neg (not_not_intro arity), if_neg (not_not_intro arity), Stack.top_eq whole rfl,
      ← inside.shared]
    dsimp only
    cases performed : Machine.performBusy host n args inner with
    | done v last =>
        rw [performed] at replies
        obtain ⟨-, ⟨extra, grown, -⟩, frames, -⟩ :=
          calls.serves n args inner v last propers globals performed
        have answer : library.native n args inner.shared = (.ok v, last.shared) := replies
        have whole' : last.stack.values = (c.ground env ++ temps) ++ (.native n :: args ++ extra) := by
          rw [show last.stack.values = _ from grown, inside.values]
          simp
        have height : inner.height - args.length - 1 = (c.ground env ++ temps).length := by
          rw [inside.height, List.length_append, List.length_append, List.length_cons]
          omega
        have drops : inner.height - args.length - 1 ≤ last.stack.height := by
          rw [height, ← Stack.length_values, whole']
          simp only [List.length_append]
          omega
        have lowered : c.Placed (p + 2) { env with shared := last.shared } temps
            (last.withStack (last.stack.resize (inner.height - args.length - 1))) := by
          refine ⟨?_, ?_, rfl⟩
          · obtain ⟨before, placed⟩ := inside.frames
            exact ⟨before, frames.trans placed⟩
          · rw [Machine.values, Machine.withStack, Stack.values_resize drops, whole', height,
              List.take_left' rfl]
            rfl
        rw [answer]
        exact lowered.pushOn v
    | fault f last =>
        rw [performed] at replies
        have answer : library.native n args inner.shared = (.error f.cause, last.shared) := replies
        rw [answer]
        exact .inr rfl
    | _ =>
        rw [performed] at replies
        exact replies.elim
  · rw [if_pos arity, if_pos arity]
    exact inside.raise _

theorem At.call {callee : Value} (start : c.At p env (temps ++ callee :: args) m)
    (has : c.routine.Has p ⟨.call, args.length⟩) :
    m.Tracks host (least + 1) (c.Yields (p + 2) env.names temps)
      (apply library level callee args env) := by
  cases callee with
  | routine r => exact start.enter calls has
  | native n => exact start.callNative calls has
  | _ =>
      refine start.value calls.serves has fun frame inner inside => ?_
      have called : Machine.execute host inner frame .call args.length = _ := inside.peekThen _
      rw [called]
      exact inside.raise .notCallable

end

end Call

end Reckoner
