import Reckoner.Proofs.Script.Assembly

/-!
Joints of compiled functions. Where a statement begins or ends, and where `break` and `continue` lead,
there are some locals in scope and no value is waited with.
-/

namespace Reckoner.Script

/-- An offset of some code with the locals in scope there, the newest first. -/
structure Joint where
  offset : Nat
  scope : List String

/-- The joints of a loop of a given size: where it begins, where `continue` goes on, where it ends, and
those of its body, which are given for the loop around it and the offset where it starts. -/
def loopJoints (pool : Pool) (scope : List String) (p : Nat) (test step : Option Expression)
    (size : Nat) (body : LoopSite → Nat → List Joint) : List Joint :=
  let clause := p + codeSize (testCode pool scope 0 test)
  let start := clause + codeSize (stepCode pool scope clause p step)
  let again := stepStart clause p step
  ⟨p, scope⟩ :: ⟨again, scope⟩ :: ⟨p + size, scope⟩ :: body ⟨again, scope.length⟩ start

section

variable (pool : Pool) (unit : Nat)

mutual

def Statement.joints (scope : List String) (loop : Option LoopSite) (p : Nat) (s : Statement) :
    List Joint :=
  ⟨p, scope⟩ :: ⟨p + slotsSize (s.code pool unit scope loop p), scope⟩ ::
    match s with
    | .ifElse c s t =>
      let yes := p + codeSize (c.code pool scope) + 4
      let no := yes + slotsSize (s.code pool unit scope loop yes) + 4
      s.joints scope loop yes ++ t.joints scope loop no
    | .while c s =>
      let size := codeSize (loopCode pool scope p (some c) none fun site p =>
        s.code pool unit scope (some site) p)
      loopJoints pool scope p (some c) none size fun site p => s.joints scope (some site) p
    | .for first c step s =>
      let inner := first.names ++ scope
      let start := p + codeSize (first.code pool scope)
      let size := codeSize (loopCode pool inner start c step fun site p =>
        s.code pool unit inner (some site) p)
      loopJoints pool inner start c step size fun site p => s.joints inner (some site) p
    | .block body => jointsOf false scope loop p body
    | .empty | .print _ | .expression _ | .break | .continue | .return _ => []

def Declaration.joints (scope : List String) (loop : Option LoopSite) (p : Nat) :
    Declaration → List Joint
  | .statement s => s.joints scope loop p
  | .var _ _ | .function _ => []

def jointsOf (isGlobal : Bool) (scope : List String) (loop : Option LoopSite) (p : Nat) :
    List Declaration → List Joint
  | [] => [⟨p, scope⟩]
  | d :: rest =>
    ⟨p, scope⟩ :: (d.joints scope loop p ++
      jointsOf isGlobal (d.names isGlobal ++ scope) loop
        (p + slotsSize (d.code pool unit isGlobal scope loop p)) rest)

end

end

def Function.joints (f : Function) (pool : Pool) (unit : Nat) (isGlobal : Bool) : List Joint :=
  jointsOf pool unit isGlobal f.scope none 0 f.body

end Reckoner.Script
