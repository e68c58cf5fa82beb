import Reckoner.Machine.State

/-!
Host functions. What one does is described as data: it answers, fails, or asks the machine for
something and goes on with the answer. The machine alone decides how requests are served.
-/

namespace Reckoner

/-- How an activity of the machine ends. A crash leaves the calls in progress behind. -/
inductive Ending (α : Type) where
  | done (value : α) (m : Machine)
  | fault (f : Fault) (m : Machine)
  | crash (reason : String) (m : Machine)
  | exhausted (m : Machine)

def Ending.machine {α : Type} : Ending α → Machine
  | .done _ m | .fault _ m | .crash _ m | .exhausted m => m

inductive Action where
  | answer (v : Value)
  | fail (e : HostError)
  | passOn (f : Fault)
  | crash (reason : String)
  | height (next : Nat → Action)
  | define (name : String) (v : Value) (next : Action)
  | push (v : Value) (next : Action)
  | call (name : String) (args : List Value) (next : Except Fault Value → Action)
  | interpret (r : Routine) (next : Option Fault → Action)
  | clock (next : Decimal → Action)
  | random (next : Decimal → Action)

abbrev Host := Native → List Value → Action

/-- Serves the requests of a host function. Calls back into the machine go to the two services. -/
def Action.perform (call : String → List Value → Machine → Ending Value)
    (interpret : Routine → Machine → Ending Unit) : Action → Machine → Ending Value
  | .answer v, m => .done v m
  | .fail e, m => .fault (m.faultOf (.host e)) m
  | .passOn f, m => .fault f m
  | .crash reason, m => .crash reason m
  | .height next, m => (next m.height).perform call interpret m
  | .define name v next, m => next.perform call interpret (m.define name v)
  | .push v next, m =>
    match m.push v with
    | .ok m => next.perform call interpret m
    | .error _ => next.perform call interpret m
  | .call name args next, m =>
    match call name args m with
    | .done v m => (next (.ok v)).perform call interpret m
    | .fault f m => (next (.error f)).perform call interpret m
    | .crash reason m => .crash reason m
    | .exhausted m => .exhausted m
  | .interpret r next, m =>
    match interpret r m with
    | .done _ m => (next none).perform call interpret m
    | .fault f m => (next (some f)).perform call interpret m
    | .crash reason m => .crash reason m
    | .exhausted m => .exhausted m
  | .clock next, m =>
    let (d, world) := m.world.readClock
    (next d).perform call interpret { m with world }
  | .random next, m =>
    let (d, world) := m.world.draw
    (next d).perform call interpret { m with world }

def Host.standard : Host := fun n _ =>
  match n.code with
  | "clock" => .clock fun d => .answer (.number d)
  | "random" => .random fun d => .answer (.number d)
  | _ => .fail (.plain ("native " ++ n.name ++ " has no handler"))

end Reckoner
