import Reckoner.Machine.Host
import Reckoner.Decimal.Power
import Reckoner.Proofs.Script.Tree

/-!
What scripts mean, said on their trees and without a stack. Expressions and statements are evaluated
by recursion on the tree; calls and further rounds of a loop, which no tree bounds, are tied to a
number of levels, and an evaluation that runs out of levels is unfinished.
-/

namespace Reckoner

/-- What all calls share: the globals, what was written, and what natives see of the outside. -/
structure Shared where
  globals : Globals
  written : Array (Channel × String)
  world : World

def Machine.shared (m : Machine) : Shared := ⟨m.globals, m.written, m.world⟩

namespace Script

/-- The locals of the innermost call by name, the newest first, and what it shares with others. -/
structure Environment where
  locals : List (String × Value)
  shared : Shared

/-- How an evaluation ends. -/
inductive Outcome (α : Type) where
  | done (result : α) (env : Environment)
  | fault (cause : Cause) (shared : Shared)
  | unfinished

def Outcome.andThen {α β : Type} (outcome : Outcome α) (next : α → Environment → Outcome β) :
    Outcome β :=
  match outcome with
  | .done result env => next result env
  | .fault cause shared => .fault cause shared
  | .unfinished => .unfinished

abbrev Eval (α : Type) : Type := Environment → Outcome α

instance : Monad Eval where
  pure result := fun env => .done result env
  bind first next := fun env => (first env).andThen next

def fail {α : Type} (cause : Cause) : Eval α := fun env => .fault cause env.shared

def attempt {α : Type} : Except Cause α → Eval α
  | .ok result => pure result
  | .error cause => fail cause

namespace Environment

def names (env : Environment) : List String := env.locals.map Prod.fst

def keep (env : Environment) (count : Nat) : Environment :=
  { env with locals := env.locals.drop (env.locals.length - count) }

def replace (name : String) (v : Value) : List (String × Value) → List (String × Value)
  | [] => []
  | (x, w) :: rest => if x == name then (x, v) :: rest else (x, w) :: replace name v rest

end Environment

/-- A name means the newest local it belongs to, and a global otherwise. -/
def readName (name : String) : Eval Value := fun env =>
  match env.locals.lookup name with
  | some v => .done v env
  | none =>
    match env.shared.globals[name]? with
    | some v => .done v env
    | none => .fault (.undefinedVariable name) env.shared

def Shared.define (shared : Shared) (name : String) (v : Value) : Shared :=
  { shared with globals := shared.globals.insert name v }

/-- An assignment has the assigned value. It makes no new variable. -/
def assign (name : String) (v : Value) : Eval Value := fun env =>
  match env.locals.lookup name with
  | some _ => .done v { env with locals := Environment.replace name v env.locals }
  | none =>
    match env.shared.globals[name]? with
    | some _ => .done v { env with shared := Shared.define env.shared name v }
    | none => .fault (.undefinedVariable name) env.shared

/-- A new variable: a global outside all scopes, a local inside one. -/
def declare (isGlobal : Bool) (name : String) (v : Value) : Eval Unit := fun env =>
  if isGlobal then .done () { env with shared := Shared.define env.shared name v }
  else .done () { env with locals := (name, v) :: env.locals }

def display (v : Value) : Eval Unit := fun env =>
  .done () { env with
    shared := { env.shared with written := env.shared.written.push (.out, v.display ++ "\n") } }

def inScope {α : Type} (inner : Eval α) : Eval α := fun env =>
  (inner env).andThen fun result after => .done result (after.keep env.locals.length)

/-! Operators -/

def onNumbers (f : Decimal → Decimal → Except Cause Value) : Value → Value → Except Cause Value
  | .number x, .number y => f x y
  | _, _ => .error .operandsNotNumbers

def arithmetic (f : Decimal → Decimal → Except ArithmeticError Decimal) :
    Value → Value → Except Cause Value :=
  onNumbers fun x y =>
    match f x y with
    | .ok d => .ok (.number d)
    | .error e => .error (.arithmetic e)

def comparison (holds : Ordering → Bool) : Value → Value → Except Cause Value :=
  onNumbers fun x y => .ok (.bool (holds (x.compare y)))

def Operator.apply : Operator → Value → Value → Except Cause Value
  | .add => arithmetic Decimal.add
  | .subtract => arithmetic Decimal.sub
  | .multiply => arithmetic Decimal.mul
  | .divide => arithmetic Decimal.quo
  | .power => arithmetic Decimal.pow
  | .modulo => arithmetic Decimal.rem
  | .equal => fun x y => .ok (.bool (x.same y))
  | .notEqual => fun x y => .ok (.bool !(x.same y))
  | .greater => comparison Ordering.isGT
  | .greaterEqual => comparison Ordering.isGE
  | .less => comparison Ordering.isLT
  | .lessEqual => comparison Ordering.isLE

def negative : Value → Except Cause Value
  | .number d => .ok (.number d.negate)
  | _ => .error .operandNotNumber

/-! Calls and loops -/

structure Program where
  isGlobal : Bool
  function : Function

/-- What an evaluation takes from elsewhere: the tree behind a function value, the number that a
literal stands for in a function, the values of the functions declared in one, and what natives do. -/
structure Library where
  program : Routine → Program
  literal : Routine → Decimal → Decimal
  inner : Routine → Function → Value
  native : Native → List Value → Shared → Except Cause Value × Shared

inductive Completion where
  | normal
  | broke
  | continued
  | returned (v : Value)

/-- What lies one level deeper: the body of a called function, and the rounds of a loop. -/
structure Level where
  body : Routine → Eval Value
  loop : Routine → (condition step : Option Expression) → Statement → Eval Completion

def bindAll (parameters : List String) (args : List Value) : List (String × Value) :=
  (parameters.zip args).reverse

section

variable (library : Library) (level : Level)

/-- Calls a value. The call has locals of its own. -/
def apply (callee : Value) (args : List Value) : Eval Value := fun env =>
  match callee with
  | .routine r =>
    if r.arity ≠ args.length then .fault (.arity r.arity args.length) env.shared
    else
      let locals := bindAll (library.program r).function.parameters args
      (level.body r ⟨locals, env.shared⟩).andThen fun v after =>
        .done v { env with shared := after.shared }
  | .native n =>
    if n.arity ≠ args.length then .fault (.arity n.arity args.length) env.shared
    else
      match library.native n args env.shared with
      | (.ok v, shared) => .done v { env with shared }
      | (.error cause, shared) => .fault cause shared
  | _ => .fault .notCallable env.shared

variable (r : Routine)

mutual

/-- The value of an expression in a call of a function. Operands are evaluated from left to right. -/
def Expression.eval : Expression → Eval Value
  | .number d => pure (.number (library.literal r d))
  | .bool b => pure (.bool b)
  | .read name => readName name
  | .assign name e => do
    let v ← e.eval
    assign name v
  | .update name op e => do
    let old ← readName name
    let v ← e.eval
    let new ← attempt (op.apply old v)
    assign name new
  | .negate e => do
    let v ← e.eval
    attempt (negative v)
  | .not e => do
    let v ← e.eval
    pure (.bool v.falsey)
  | .binary op a b => do
    let x ← a.eval
    let y ← b.eval
    attempt (op.apply x y)
  | .and a b => do
    let x ← a.eval
    if x.truthy then b.eval else pure x
  | .or a b => do
    let x ← a.eval
    if x.truthy then pure x else b.eval
  | .call f args => do
    let callee ← f.eval
    let values ← evalAll args
    apply library level callee values

def evalAll : List Expression → Eval (List Value)
  | [] => pure []
  | e :: rest => do
    let v ← e.eval
    let values ← evalAll rest
    pure (v :: values)

end

def evalOptional : Option Expression → Eval Value
  | some e => e.eval library level r
  | none => pure (.bool false)

def test : Option Expression → Eval Bool
  | some e => do
    let v ← e.eval library level r
    pure v.truthy
  | none => pure true

def perform : Option Expression → Eval Unit
  | some e => do
    let _ ← e.eval library level r
    pure ()
  | none => pure ()

/-- A round of a loop: the condition, the body and the last clause, and then the rounds that follow.
A body that was left by `continue` goes on with the last clause. -/
def round (condition : Eval Bool) (body : Eval Completion) (step : Eval Unit)
    (again : Eval Completion) : Eval Completion := do
  if ← condition then
    match ← body with
    | .normal | .continued => do
      step
      again
    | .broke => pure .normal
    | .returned v => pure (.returned v)
  else pure .normal

def Initializer.eval : Initializer → Eval Unit
  | .none => pure ()
  | .var name value => do
    let v ← evalOptional library level r value
    declare false name v
  | .expression e => perform library level r (some e)

mutual

def Statement.exec (inLoop : Bool) : Statement → Eval Completion
  | .empty => pure .normal
  | .print e => do
    let v ← e.eval library level r
    display v
    pure .normal
  | .expression e => do
    perform library level r (some e)
    pure .normal
  | .ifElse c s t => do
    let v ← c.eval library level r
    if v.truthy then s.exec inLoop else t.exec inLoop
  | .while c s =>
    round (test library level r (some c)) (s.exec true) (perform library level r none)
      (level.loop r (some c) none s)
  | .for first c step s => inScope do
    first.eval library level r
    round (test library level r c) (s.exec true) (perform library level r step)
      (level.loop r c step s)
  | .break => pure (if inLoop then .broke else .normal)
  | .continue => pure (if inLoop then .continued else .normal)
  | .return value => do
    let v ← evalOptional library level r value
    pure (.returned v)
  | .block body => inScope (execAll false inLoop body)

def Declaration.exec (isGlobal inLoop : Bool) : Declaration → Eval Completion
  | .var name value => do
    let v ← evalOptional library level r value
    declare isGlobal name v
    pure .normal
  | .function f => do
    declare isGlobal f.name (library.inner r f)
    pure .normal
  | .statement s => s.exec inLoop

def execAll (isGlobal inLoop : Bool) : List Declaration → Eval Completion
  | [] => pure .normal
  | d :: rest => do
    match ← d.exec isGlobal inLoop with
    | .normal => execAll isGlobal inLoop rest
    | left => pure left

end

/-- The value that a call of a function gives. A body that is not left by `return` gives the value
behind it, or false. -/
def Program.run (program : Program) : Eval Value := do
  match ← execAll library level r program.isGlobal false program.function.body with
  | .returned v => pure v
  | _ => evalOptional library level r program.function.result

end

def Library.levels (library : Library) : (depth : Nat) → Level
  | 0 => { body := fun _ _ => .unfinished, loop := fun _ _ _ _ _ => .unfinished }
  | depth + 1 =>
    let level := library.levels depth
    { body := fun r => (library.program r).run library level r
      loop := fun r condition step s =>
        round (test library level r condition) (s.exec library level r true)
          (perform library level r step) (level.loop r condition step s) }

end Script

end Reckoner
