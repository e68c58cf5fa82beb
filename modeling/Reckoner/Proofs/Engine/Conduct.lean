import Reckoner.Engine.Basic
import Reckoner.Proofs.Machine.Clean

/-!
Host functions of an engine. They run while the engine is in an operation, so all they ask of it is
refused and changes nothing; and they touch the machine by their answers only.
-/

namespace Reckoner

def Action.Plain : Action → Prop
  | .answer _ | .fail _ => True
  | .clock next | .random next => ∀ d, (next d).Plain
  | _ => False

def Host.Plain (host : Host) : Prop := ∀ n args, (host n args).Plain

theorem Action.Plain.perform {call : String → List Value → Machine → Ending Value}
    {interpret : Routine → Machine → Ending Unit} {action : Action} (plain : action.Plain) (m : Machine) :
    (∃ v world, action.perform call interpret m = .done v { m with world } ∧
      (action.Honest → v.Proper)) ∨
    ∃ f after, action.perform call interpret m = .fault f after := by
  induction action generalizing m with
  | answer v => exact .inl ⟨v, m.world, rfl, id⟩
  | fail e => exact .inr ⟨_, m, rfl⟩
  | clock next ih | random next ih =>
      rcases ih _ (plain _) _ with ⟨v, world, performed, proper⟩ | ⟨f, after, performed⟩
      · exact .inl ⟨v, world, performed, fun honest => proper (honest _)⟩
      · exact .inr ⟨f, after, performed⟩
  | _ => exact plain.elim

namespace Host.Plain

variable {host : Host} (plain : host.Plain)

include plain

theorem calm : host.Calm := by
  intro n args before reason after crashed
  rcases (plain n args).perform before with ⟨v, world, performed, -⟩ | ⟨f, last, performed⟩
  · exact absurd (performed.symm.trans crashed) nofun
  · exact absurd (performed.symm.trans crashed) nofun

theorem silent (reason : String) : ¬Machine.CrashedInNative host reason := by
  rintro (⟨n, args, before, after, crashed⟩ | ⟨fuel, n, args, before, after, crashed⟩)
  · exact plain.calm n args before reason after crashed
  · rcases (plain n args).perform before with ⟨v, world, performed, -⟩ | ⟨f, last, performed⟩
    · exact absurd (performed.symm.trans crashed) nofun
    · exact absurd (performed.symm.trans crashed) nofun

theorem respects (honest : host.Honest) : host.Respects := by
  have answers : ∀ call interpret n args m v after, (∀ w ∈ args, w.Proper) → m.ProperGlobals →
      (host n args).perform call interpret m = .done v after → m.Answered after v := by
    intro call interpret n args m v after propers globals done
    rcases (plain n args).perform m with ⟨w, world, performed, proper⟩ | ⟨f, last, performed⟩
    · cases performed.symm.trans done
      exact ⟨proper (honest n args propers), rfl, rfl, globals⟩
    · exact absurd (performed.symm.trans done) nofun
  constructor
  · intro n args m v after propers globals done
    exact answers _ _ n args m v after propers globals done
  · intro fuel n args m v after propers globals done
    exact answers _ _ n args m v after propers globals done

end Host.Plain

theorem Host.standard_plain : Host.standard.Plain := by
  intro n args
  rw [Host.standard]
  split
  · exact fun d => trivial
  · exact fun d => trivial
  · trivial

/-- A host function gives only values that it can have got, whatever its engine replies. -/
def Conduct.Tame : Conduct → Prop
  | .answer v => v.Proper
  | .fail _ => True
  | .ask _ next => ∀ outcome, (next outcome).Tame

def HostFunction.Tame (f : HostFunction) : Prop :=
  ∀ handler args, f.handler = some handler → (∀ v ∈ args, v.Proper) →
    (handler { values := args }).Tame

namespace Conduct

theorem toAction_plain (reply : Except EngineError Unit) (c : Conduct) : (c.toAction reply).Plain := by
  induction c with
  | answer | fail => trivial
  | ask r next ih => exact ih reply

theorem Tame.honest {reply : Except EngineError Unit} {c : Conduct} (tame : c.Tame) :
    (c.toAction reply).Honest := by
  induction c with
  | answer v => exact tame
  | fail e => trivial
  | ask r next ih => exact ih reply (tame reply)

/-- The same conduct with an engine that serves every request as it stands. -/
def converse (fuel : Nat) : Conduct → Engine → Except HostError Value × Engine
  | .answer v, e => (.ok v, e)
  | .fail error, e => (.error error, e)
  | .ask r next, e =>
    let (outcome, e) := e.serve fuel r
    (next outcome).converse fuel e

end Conduct

namespace Engine

variable {functions : Array HostFunction} {reply : Except EngineError Unit}

theorem hostOf_plain : (hostOf functions reply).Plain := by
  intro n args
  rw [hostOf]
  split
  · split
    · exact Conduct.toAction_plain ..
    · trivial
  · exact Host.standard_plain n args

theorem hostOf_honest (tame : ∀ f ∈ functions, f.Tame) : (hostOf functions reply).Honest := by
  intro n args propers
  rw [hostOf]
  split
  · split
    · rename_i handler found
      obtain ⟨f, bound, handled⟩ := Option.bind_eq_some_iff.mp found
      exact (tame f (Array.mem_of_getElem? bound) handler args handled propers).honest
    · trivial
  · exact Host.standard_honest n args propers

theorem serve_busy {e : Engine} (busy : e.busy = true) (fuel : Nat) (r : Request) :
    e.serve fuel r = (.error .busy, e) := by
  have refused : e.acquire = .error .busy := if_pos busy
  cases r <;> simp only [serve, interpret, evaluate, call, duplicate, listing, during, refused] <;> rfl

theorem loadFile_busy {e : Engine} (busy : e.busy = true) (fuel : Nat) (files : Files)
    (directory path : String) :
    e.loadFile fuel files directory path =
      ((files.read directory path).map fun _ => .error .busy, e) := by
  have refused : e.acquire = .error .busy := if_pos busy
  rw [loadFile]
  split
  · rename_i fault unread
    rw [unread]
    rfl
  · rename_i source read
    simp only [read, interpret, during, refused]
    rfl

theorem converse_busy {e : Engine} (busy : e.busy = true) (fuel : Nat) (c : Conduct)
    {call : String → List Value → Machine → Ending Value} {interpret : Routine → Machine → Ending Unit} :
    (c.converse fuel e).2 = e ∧
      (c.toAction e.reply).perform call interpret e.machine =
        match (c.converse fuel e).1 with
        | .ok v => .done v e.machine
        | .error error => .fault (e.machine.faultOf (.host error)) e.machine := by
  have reply : e.reply = .error .busy := by
    rw [Engine.reply, show e.acquire = .error .busy from if_pos busy]
    rfl
  induction c with
  | answer | fail => exact ⟨rfl, rfl⟩
  | ask r next ih =>
      rw [Conduct.converse, serve_busy busy, Conduct.toAction, reply]
      rw [reply] at ih
      exact ih _

end Engine

end Reckoner
