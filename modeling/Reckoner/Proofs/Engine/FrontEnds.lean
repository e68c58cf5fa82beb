import Reckoner.Prompt.Basic
import Reckoner.Proofs.Engine.Conduct
import Reckoner.Proofs.Service.Isolation

/-!
No front end leaves anything behind. Whatever an engine, the prompt or a session of the service has been
asked, and however it ended, the machine below is clean again and the engine is ready for the next.
-/

namespace Reckoner

theorem Routine.compiled_script {unit : Nat} {source : String} {r : Routine}
    (accepted : compile unit source = .ok r) : r.Compiled := ⟨unit, _, r, .inl accepted, .self⟩

theorem Routine.compiled_expression {unit : Nat} {source : String} {r : Routine}
    (accepted : compileExpression unit source = .ok r) : r.Compiled := ⟨unit, _, r, .inr accepted, .self⟩

theorem Routine.compiled_either {unit : Nat} {source : String} {r : Routine}
    (accepted : compileEither unit source = .ok r) : r.Compiled := by
  rw [compileEither, readEither] at accepted
  cases expression : compileExpression unit source with
  | ok routine =>
      rw [expression] at accepted
      rw [← Except.ok.inj accepted]
      exact compiled_expression expression
  | error ds =>
      rw [expression] at accepted
      cases script : compile unit source with
      | error ds =>
          rw [script] at accepted
          exact absurd accepted nofun
      | ok routine =>
          rw [script] at accepted
          rw [← Except.ok.inj accepted]
          exact compiled_script script

theorem Routine.compiled_read {unit : Nat} {source : String} {mode : Mode} {r : Routine}
    (accepted : Prompt.read unit source = .ok (mode, r)) : r.Compiled := by
  rw [Prompt.read] at accepted
  cases script : compile unit source with
  | ok routine =>
      rw [script] at accepted
      split at accepted
      · cases accepted
        exact compiled_script script
      · split at accepted
        · rename_i expression
          cases accepted
          exact compiled_expression expression
        · cases accepted
          exact compiled_script script
  | error ds =>
      rw [script] at accepted
      split at accepted
      · exact absurd accepted nofun
      · split at accepted
        · rename_i expression
          cases accepted
          exact compiled_expression expression
        · exact absurd accepted nofun

def Machine.RunsOut (host : Host) (fuel : Nat) (reading : Nat → Except (List Diagnostic) Routine)
    (m : Machine) : Prop :=
  ∃ r after, reading m.units = .ok r ∧ m.freshUnit.2.interpret host fuel r = .exhausted after

theorem Machine.compileWith_eq {α : Type} (m : Machine) (f : Nat → Except (List Diagnostic) α) :
    m.compileWith f = (f m.units, m.freshUnit.2) := rfl

theorem Machine.Clean.freshUnit {m : Machine} (clean : m.Clean) : m.freshUnit.2.Clean :=
  clean.of_eq rfl rfl rfl

theorem Machine.not_runsOut {host : Host} {fuel : Nat}
    {reading : Nat → Except (List Diagnostic) Routine} {m : Machine}
    (ends : ((reading m.units).toOption.any fun r =>
      match m.freshUnit.2.interpret host fuel r with
      | .exhausted _ => true
      | _ => false) = false) : ¬m.RunsOut host fuel reading := by
  rintro ⟨r, after, read, exhausted⟩
  rw [read] at ends
  simp [Except.toOption, exhausted] at ends

namespace Engine

def held (e : Engine) : Engine := { e with busy := true }

def RunsOut (fuel : Nat) (e : Engine) : Request → Prop
  | .interpret source => e.machine.RunsOut e.held.host fuel (compile · source)
  | .evaluate source => e.machine.RunsOut e.held.host fuel (compileEither · source)
  | .call name args => ∃ after, e.machine.callGlobal e.held.host fuel name args = .exhausted after
  | .duplicate | .listing => False

/-- The engines that come about, if every operation is awaited before the next one. -/
inductive Comes : Engine → Prop where
  | new (maxFrames : Int) (world : World) : Comes (.new maxFrames world)
  | bound {e : Engine} (name : String) {f : HostFunction} (comes : Comes e) (tame : f.Tame) :
    Comes (e.bind name f)
  | served {e : Engine} (fuel : Nat) {r : Request} (comes : Comes e)
    (proper : ∀ name args, r = .call name args → ∀ v ∈ args, v.Proper) (ends : ¬e.RunsOut fuel r) :
    Comes (e.serve fuel r).2
  | loaded {e : Engine} (fuel : Nat) (files : Files) (directory path : String) (comes : Comes e)
    (ends : ∀ source, files.read directory path = .ok source → ¬e.RunsOut fuel (.interpret source)) :
    Comes (e.loadFile fuel files directory path).2
  | copied {e copy : Engine} (comes : Comes e) (copies : e.duplicate.1 = .ok copy) : Comes copy

/-- An engine with nothing in progress and nothing left of what was. -/
structure Sound (e : Engine) : Prop where
  machine : e.machine.Clean
  idle : e.busy = false
  functions : ∀ f ∈ e.functions, f.Tame

theorem during_eq {α : Type} {e : Engine} (idle : e.busy = false)
    (operation : Host → Machine → Except EngineError α × Machine) :
    e.during operation =
      ((operation e.held.host e.machine).1, { e with machine := (operation e.held.host e.machine).2 }) := by
  have acquired : e.acquire = .ok e.held := by
    rw [acquire, idle]
    rfl
  simp only [during, acquired, release, held]
  rw [← idle]

theorem runRoutine_clean {host : Host} {fuel : Nat} {r : Routine} {m : Machine} (honest : host.Honest)
    (calm : host.Calm) (clean : m.Clean) (compiled : r.Compiled)
    (ends : ∀ after, m.interpret host fuel r ≠ .exhausted after) : (runRoutine fuel r host m).2.Clean := by
  have clears := clean.interpret honest calm compiled fuel
  rw [runRoutine]
  generalize m.interpret host fuel r = ending at clears ends ⊢
  cases ending with
  | done _ after =>
      obtain ⟨v, popped, pop, last⟩ := clears
      simp only [pop]
      exact last
  | fault f after => exact clears
  | crash reason after => exact clears.elim
  | exhausted after => exact absurd rfl (ends after)

theorem host_plain (e : Engine) : e.host.Plain := hostOf_plain

section

variable {e : Engine} (sound : e.Sound)

include sound

theorem Sound.during {α : Type} {operation : Host → Machine → Except EngineError α × Machine}
    (clean : (operation e.held.host e.machine).2.Clean) : (e.during operation).2.Sound := by
  rw [during_eq sound.idle]
  exact ⟨clean, sound.idle, sound.functions⟩

theorem Sound.honest : e.held.host.Honest := hostOf_honest sound.functions

theorem Sound.interpret {fuel : Nat} {source : String} (ends : ¬e.RunsOut fuel (.interpret source)) :
    (e.interpret fuel source).2.Sound := by
  refine sound.during ?_
  have fresh := sound.machine.freshUnit
  rw [Machine.compileWith_eq]
  cases read : compile e.machine.units source with
  | error ds => exact fresh.writeDiagnostics ds
  | ok r =>
      refine runRoutine_clean sound.honest e.held.host_plain.calm fresh (Routine.compiled_script read) ?_
      intro after exhausted
      exact ends ⟨r, after, read, exhausted⟩

theorem Sound.evaluate {fuel : Nat} {source : String} (ends : ¬e.RunsOut fuel (.evaluate source)) :
    (e.evaluate fuel false source).2.Sound := by
  refine sound.during ?_
  have fresh := sound.machine.freshUnit
  rw [if_neg Bool.false_ne_true, Machine.compileWith_eq]
  cases read : compileEither e.machine.units source with
  | error ds => exact fresh
  | ok r =>
      refine runRoutine_clean sound.honest e.held.host_plain.calm fresh (Routine.compiled_either read) ?_
      intro after exhausted
      exact ends ⟨r, after, read, exhausted⟩

theorem Sound.call {fuel : Nat} {name : String} {args : List Value} (propers : ∀ v ∈ args, v.Proper)
    (ends : ¬e.RunsOut fuel (.call name args)) : (e.call fuel false name args).2.Sound := by
  refine sound.during ?_
  have plain := e.held.host_plain
  have clears := sound.machine.callGlobal sound.honest (plain.respects sound.honest) plain.silent propers
    name fuel
  rw [if_neg Bool.false_ne_true]
  have lasts : ∀ after, e.machine.callGlobal e.held.host fuel name args ≠ .exhausted after :=
    fun after exhausted => ends ⟨after, exhausted⟩
  generalize e.machine.callGlobal e.held.host fuel name args = ending at clears lasts ⊢
  cases ending with
  | done v after => exact clears
  | fault f after => exact clears
  | crash reason after => exact clears.elim
  | exhausted after => exact absurd rfl (lasts after)

theorem Sound.listing : e.listing.2.Sound := by
  refine sound.during ?_
  split <;> exact sound.machine

theorem Sound.duplicate : e.duplicate.2.Sound := by
  rw [Engine.duplicate, during_eq sound.idle]
  exact ⟨sound.machine, sound.idle, sound.functions⟩

theorem Sound.copy {copy : Engine} (copies : e.duplicate.1 = .ok copy) : copy.Sound := by
  rw [Engine.duplicate, during_eq sound.idle] at copies
  rw [← Except.ok.inj copies]
  exact ⟨Machine.duplicate_clean sound.machine.globals, rfl, sound.functions⟩

theorem Sound.serve {fuel : Nat} {r : Request}
    (proper : ∀ name args, r = .call name args → ∀ v ∈ args, v.Proper) (ends : ¬e.RunsOut fuel r) :
    (e.serve fuel r).2.Sound := by
  cases r with
  | interpret source => exact sound.interpret ends
  | evaluate source => exact sound.evaluate ends
  | call name args => exact sound.call (proper name args rfl) ends
  | duplicate => exact sound.duplicate
  | listing => exact sound.listing

theorem Sound.bind {f : HostFunction} (tame : f.Tame) (name : String) : (e.bind name f).Sound := by
  refine ⟨sound.machine.define (v := .native _) trivial name, sound.idle, ?_⟩
  intro g member
  rcases Array.mem_push.mp member with old | rfl
  · exact sound.functions g old
  · exact tame

end

theorem Comes.sound {e : Engine} (comes : e.Comes) : e.Sound := by
  induction comes with
  | new maxFrames world => exact ⟨Machine.new_clean maxFrames world, rfl, nofun⟩
  | bound name comes tame ih => exact ih.bind tame name
  | served fuel comes proper ends ih => exact ih.serve proper ends
  | loaded fuel files directory path comes ends ih =>
      rw [loadFile]
      cases read : files.read directory path with
      | error fault => exact ih
      | ok source => exact ih.interpret (ends source read)
  | copied comes copies ih => exact ih.copy copies

end Engine

namespace Prompt

def joined (p : Prompt) (line : String) : String :=
  if p.pending.isEmpty then line else p.pending ++ "\n" ++ line

def RunsOut (host : Host) (fuel : Nat) (line : String) (p : Prompt) : Prop :=
  p.machine.clearWritten.RunsOut host fuel fun unit =>
    (read unit (Text.trim (p.joined line))).map Prod.snd

/-- The prompts that come about on a machine that is clean at first. -/
inductive Comes (host : Host) : Prompt → Prop where
  | start {p : Prompt} (clean : p.machine.Clean) : Comes host p
  | fed {p : Prompt} (fuel : Nat) (line : String) (comes : Comes host p)
    (ends : ¬p.RunsOut host fuel line) : Comes host (p.feed host fuel line).1

section

variable {host : Host} {fuel : Nat} {source : String}

theorem evaluate_clean (honest : host.Honest) (calm : host.Calm) {m : Machine} (clean : m.Clean)
    (ends : ¬m.RunsOut host fuel fun unit => (read unit source).map Prod.snd) :
    (evaluate host fuel source m).2.Clean := by
  have fresh := clean.freshUnit
  rw [evaluate, Machine.compileWith_eq]
  cases accepted : read m.units source with
  | error ds => exact fresh.writeDiagnostics ds
  | ok reading =>
      obtain ⟨mode, r⟩ := reading
      have clears := fresh.interpret honest calm (Routine.compiled_read accepted) fuel
      have lasts : ∀ after, m.freshUnit.2.interpret host fuel r ≠ .exhausted after := by
        intro after exhausted
        refine ends ⟨r, after, ?_, exhausted⟩
        dsimp only
        rw [accepted]
        rfl
      dsimp only
      generalize m.freshUnit.2.interpret host fuel r = ending at clears lasts ⊢
      cases ending with
      | done _ after =>
          obtain ⟨v, popped, pop, last⟩ := clears
          simp only [pop]
          exact last
      | fault f after => exact clears
      | crash reason after => exact clears.elim
      | exhausted after => exact absurd rfl (lasts after)

theorem machine_record (p : Prompt) (source : String) (e : Evaluation) :
    (p.record source e).machine = p.machine := by
  rw [record]
  split <;> rfl

theorem machine_enter (host : Host) (fuel : Nat) (source : String) (p : Prompt) :
    (p.enter host fuel source).machine =
      (evaluate host fuel (Text.trim source) p.machine.clearWritten).2 := by
  rw [enter]
  generalize evaluate host fuel (Text.trim source) p.machine.clearWritten = result
  obtain ⟨e, machine⟩ := result
  dsimp only
  rw [machine_record]
  split <;> rfl

theorem takeLine_eq (host : Host) (fuel : Nat) (line : String) (p : Prompt) :
    p.takeLine host fuel line =
      if 0 < openBlocks (p.joined line) then { p with pending := p.joined line }
      else { p with pending := "" }.enter host fuel (p.joined line) := rfl

theorem Comes.clean (honest : host.Honest) (calm : host.Calm) {p : Prompt} (comes : p.Comes host) :
    p.machine.Clean := by
  induction comes with
  | start clean => exact clean
  | @fed p fuel line comes ends ih =>
      have cleared : p.machine.clearWritten.Clean := ih.of_eq rfl rfl rfl
      rw [feed]
      split
      · rw [takeLine_eq]
        split
        · exact ih
        · rw [machine_enter]
          exact evaluate_clean honest calm cleared ends
      · exact ih
      · exact ih
      · exact ih
      · dsimp only
        split <;> exact ih

end

end Prompt

namespace Service

def RunsOut (host : Host) (fuel : Nat) (now : Int) (source id : String) (s : Service) : Prop :=
  ∃ r session opened after, compileEither (s.unitFor id) source = .ok r ∧
    s.sessionFor now id = some (session, opened) ∧
    session.machine.clearWritten.interpret host fuel r = .exhausted after

theorem not_runsOut {host : Host} {fuel : Nat} {now : Int} {source id : String} {s : Service}
    (ends : ((compileEither (s.unitFor id) source).toOption.any fun r =>
      (s.sessionFor now id).any fun chosen =>
        match chosen.1.machine.clearWritten.interpret host fuel r with
        | .exhausted _ => true
        | _ => false) = false) : ¬s.RunsOut host fuel now source id := by
  rintro ⟨r, session, opened, after, read, chosen, exhausted⟩
  rw [read, chosen] at ends
  simp [Except.toOption, exhausted] at ends

/-- The services that come about on a template. -/
inductive Comes (host : Host) : Service → Prop where
  | new {base : Machine} (globals : base.ProperGlobals) (journal : Option Journal) (ids : Identifiers) :
    Comes host (.new base journal ids)
  | evaluated {s : Service} (fuel : Nat) (now : Int) (source id : String) (comes : Comes host s)
    (ends : ¬s.RunsOut host fuel now source id) : Comes host (s.evaluate host fuel now source id).2
  | swept {s : Service} (now ttl : Int) (comes : Comes host s) : Comes host (s.sweep now ttl).2
  | destroyed {s : Service} (id : String) (comes : Comes host s) : Comes host (s.destroy id)

structure Houses (good : Machine → Prop) (s : Service) : Prop where
  fresh : good s.base.duplicate
  sessions : ∀ session ∈ s.sessions, good session.machine

namespace Houses

variable {good : Machine → Prop} {s : Service} (houses : s.Houses good)

include houses

theorem of_eq {t : Service} (base : t.base = s.base) (sessions : t.sessions = s.sessions) :
    t.Houses good := by
  constructor
  · rw [base]
    exact houses.fresh
  · rw [sessions]
    exact houses.sessions

theorem update {session : Session} (kind : good session.machine) : (s.update session).Houses good := by
  refine ⟨houses.fresh, ?_⟩
  intro other member
  obtain ⟨old, present, rfl⟩ := List.mem_map.mp member
  split
  · exact kind
  · exact houses.sessions old present

theorem filter (keep : Session → Bool) : Houses good { s with sessions := s.sessions.filter keep } :=
  ⟨houses.fresh, fun session member => houses.sessions session (List.mem_filter.mp member).1⟩

theorem sessionFor {now : Int} {id : String} {session : Session} {opened : Service}
    (chosen : s.sessionFor now id = some (session, opened)) :
    good session.machine ∧ opened.Houses good := by
  rcases sessionFor_cases chosen with ⟨-, rfl, rfl⟩ | ⟨old, found, rfl, rfl⟩
  · refine ⟨houses.fresh, houses.fresh, ?_⟩
    intro other member
    rcases List.mem_cons.mp member with rfl | old
    · exact houses.fresh
    · exact houses.sessions other old
  · have kind := houses.sessions old (List.mem_of_find?_eq_some found)
    exact ⟨kind, houses.update kind⟩

end Houses

theorem sessionFor_base {s opened : Service} {now : Int} {id : String} {session : Session}
    (chosen : s.sessionFor now id = some (session, opened)) : opened.base = s.base := by
  rcases sessionFor_cases chosen with ⟨-, -, rfl⟩ | ⟨old, -, -, rfl⟩ <;> rfl

theorem evaluate_base (host : Host) (fuel : Nat) (now : Int) (source id : String) (s : Service) :
    (s.evaluate host fuel now source id).2.base = s.base := by
  rcases s.serve_cases ⟨now, source, id⟩ with
    ⟨e, refuses⟩ | ⟨r, session, opened, stated, accepted, chosen⟩
  · exact (serve_refused refuses).2.2.1
  · exact (serve_opened stated accepted chosen).2.2.1.trans (sessionFor_base chosen)

section

variable {host : Host} {good : Machine → Prop}
  (runs : ∀ fuel session r, good session.machine → r.Compiled →
    (∀ after, session.machine.clearWritten.interpret host fuel r ≠ .exhausted after) →
      good (run host fuel session r).2.machine.freshUnit.2)

include runs

theorem Houses.evaluate {s : Service} (houses : s.Houses good) {fuel : Nat} {now : Int}
    {source id : String} (ends : ¬s.RunsOut host fuel now source id) :
    (s.evaluate host fuel now source id).2.Houses good := by
  rcases s.serve_cases ⟨now, source, id⟩ with
    ⟨e, refuses⟩ | ⟨r, session, opened, stated, accepted, chosen⟩
  · obtain ⟨-, sessions, base, -⟩ := @serve_refused host fuel s _ e refuses
    exact houses.of_eq base sessions
  · obtain ⟨-, sessions, base, -⟩ := @serve_opened host fuel _ _ _ _ _ stated accepted chosen
    obtain ⟨kind, others⟩ := houses.sessionFor chosen
    have ran := runs fuel session r kind (Routine.compiled_either accepted)
      fun after exhausted => ends ⟨r, session, opened, after, accepted, chosen, exhausted⟩
    have updated : (opened.update (run host fuel session r).2.renewed).Houses good := others.update ran
    exact updated.of_eq base sessions

theorem Comes.houses {s : Service} (comes : s.Comes host) (fresh : good s.base.duplicate) :
    s.Houses good := by
  induction comes with
  | new globals journal ids => exact ⟨fresh, List.forall_mem_nil _⟩
  | evaluated fuel now source id comes ends ih =>
      rw [evaluate_base] at fresh
      exact (ih fresh).evaluate runs ends
  | swept now ttl comes ih => exact (ih fresh).filter _
  | destroyed id comes ih => exact (ih fresh).filter _

end

theorem Comes.globals {host : Host} {s : Service} (comes : s.Comes host) : s.base.ProperGlobals := by
  induction comes with
  | new globals journal ids => exact globals
  | evaluated fuel now source id comes ends ih =>
      rw [evaluate_base]
      exact ih
  | swept now ttl comes ih => exact ih
  | destroyed id comes ih => exact ih

section

variable {host : Host} (honest : host.Honest) (calm : host.Calm)

include honest calm

theorem run_clean {fuel : Nat} {session : Session} {r : Routine} (clean : session.machine.Clean)
    (compiled : r.Compiled)
    (ends : ∀ after, session.machine.clearWritten.interpret host fuel r ≠ .exhausted after) :
    (run host fuel session r).2.machine.Clean := by
  have cleared : session.machine.clearWritten.Clean := clean.of_eq rfl rfl rfl
  have clears := cleared.interpret honest calm compiled fuel
  rw [run]
  generalize session.machine.clearWritten.interpret host fuel r = ending at clears ends ⊢
  cases ending with
  | done _ after =>
      obtain ⟨v, popped, pop, last⟩ := clears
      simp only [pop]
      exact last
  | fault f after => exact clears
  | crash reason after => exact clears.elim
  | exhausted after => exact absurd rfl (ends after)

theorem Comes.clean {s : Service} (comes : s.Comes host) : s.Houses Machine.Clean := by
  refine comes.houses ?_ (Machine.duplicate_clean comes.globals)
  intro fuel session r clean compiled ends
  exact (run_clean honest calm clean compiled ends).freshUnit

end

end Service

/-- All that a host function asks of an engine is refused, and changes nothing. -/
structure Engine.Refuses (e : Engine) : Prop where
  requests : ∀ fuel r, e.serve fuel r = (.error .busy, e)
  files : ∀ fuel files directory path,
    e.loadFile fuel files directory path =
      ((files.read directory path).map fun _ => .error .busy, e)
  functions : ∀ n args f handler, n.code = boundCode → e.functions[n.binding]? = some f →
    f.handler = some handler → ∀ fuel call interpret,
      ((handler { values := args }).converse fuel e).2 = e ∧
        (e.host n args).perform call interpret e.machine =
          match ((handler { values := args }).converse fuel e).1 with
          | .ok v => .done v e.machine
          | .error error => .fault (e.machine.faultOf (.host error)) e.machine

theorem Engine.refuses {e : Engine} (busy : e.busy = true) : e.Refuses where
  requests := serve_busy busy
  files := loadFile_busy busy
  functions n args f handler code bound handled fuel call interpret := by
    have runs : e.host n args = (handler { values := args }).toAction e.reply := by
      simp [host, hostOf, code, bound, handled]
    rw [runs]
    exact converse_busy busy fuel _

/-- No front end leaves anything behind. Between operations the machine below an engine, a prompt or a
session has an empty stack and no call in progress, and the engine takes the next request; during one
it refuses all that a host function asks of it, whatever the machine is doing. -/
theorem front_ends_leave_nothing :
    (∀ e : Engine, e.Comes → e.machine.Clean ∧ e.busy = false) ∧
    (∀ e held : Engine, e.acquire = .ok held → ∀ m, ({ held with machine := m } : Engine).Refuses) ∧
    ∀ host : Host, host.Honest → host.Calm →
      (∀ p : Prompt, p.Comes host → p.machine.Clean) ∧
      ∀ s : Service, s.Comes host → ∀ session ∈ s.sessions, session.machine.Clean := by
  refine ⟨fun e comes => ⟨comes.sound.machine, comes.sound.idle⟩, ?_, fun host honest calm => ⟨?_, ?_⟩⟩
  · intro e held acquired m
    refine Engine.refuses ?_
    rw [Engine.acquire] at acquired
    split at acquired
    · exact absurd acquired nofun
    · rw [← Except.ok.inj acquired]
  · exact fun p comes => comes.clean honest calm
  · exact fun s comes => (comes.clean honest calm).sessions

/-- A host function that asks its own engine for a value, and a fault at the prompt and in a session. -/
theorem front_ends_leave_nothing_refusal :
    let f : HostFunction :=
      { arity := 0
        handler := some fun _ => .ask (.evaluate "1") fun outcome =>
          match outcome with
          | .ok _ => .answer (.bool true)
          | .error refusal => .fail (.plain refusal.message) }
    let e := (Engine.new 0 ⟨0, 0⟩).bind "again" f
    let p : Prompt :=
      { machine := .new 0 ⟨0, 0⟩, greeting := "", session := "", now := 0, pending := "", shown := #[]
        journal := none, ids := { issued := 0 } }
    let s := Service.new (.new 0 ⟨0, 0⟩) none { issued := 0 }
    (e.serve 100 (.evaluate "again()")).2.machine.Clean ∧
      (p.feed Host.standard 100 "1 + true").1.machine.Clean ∧
      ∀ session ∈ (s.evaluate Host.standard 100 0 "1 + true" "").2.sessions, session.machine.Clean := by
  intro f e p s
  have tame : f.Tame := by
    rintro handler args same -
    cases same
    intro outcome
    cases outcome <;> trivial
  have asked : ¬e.machine.RunsOut e.held.host 100 (compileEither · "again()") := by
    refine Machine.not_runsOut ?_
    decide +kernel
  have typed : ¬p.RunsOut Host.standard 100 "1 + true" := by
    refine Machine.not_runsOut ?_
    decide +kernel
  have sent : ¬s.RunsOut Host.standard 100 0 "1 + true" "" := by
    refine Service.not_runsOut ?_
    decide +kernel
  have prompted : p.Comes Host.standard := .start (Machine.new_clean 0 ⟨0, 0⟩)
  have served : s.Comes Host.standard := .new (Machine.new_rests 0 ⟨0, 0⟩).globals none { issued := 0 }
  have bound : e.Comes := .bound "again" (.new 0 ⟨0, 0⟩) tame
  have others := front_ends_leave_nothing.2.2 Host.standard Host.standard_honest Host.standard_plain.calm
  have noArguments : ∀ name args, Request.evaluate "again()" = .call name args → ∀ v ∈ args, v.Proper := by
    intro name args same
    cases same
  exact ⟨(front_ends_leave_nothing.1 _ (bound.served 100 noArguments asked)).1,
    others.1 _ (prompted.fed 100 "1 + true" typed),
    others.2 _ (served.evaluated 100 0 "1 + true" "" sent)⟩

end Reckoner
