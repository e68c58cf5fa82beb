import Reckoner.Compiler.Statement
import Reckoner.Proofs.Script.Depth
import Reckoner.Proofs.Script.Entries
import Reckoner.Proofs.Script.Reader

/-!
Which trees are legal: the static rules of the language, and the capacities that a tree has to keep
to. Jumps are those of the code of the tree.
-/

namespace Reckoner.Script

/-! The capacities: 256 constants and 256 slots for a function, one of which it takes itself, 255
parameters or arguments, and jumps over 65535 bytes. -/

mutual

def Expression.names : Expression → List String
  | .number _ | .bool _ => []
  | .read name => [name]
  | .assign name e => name :: e.names
  | .update name _ e => name :: e.names
  | .negate e => e.names
  | .not e => e.names
  | .binary _ a b => a.names ++ b.names
  | .and a b => a.names ++ b.names
  | .or a b => a.names ++ b.names
  | .call f args => f.names ++ namesOfAll args

def namesOfAll : List Expression → List String
  | [] => []
  | e :: rest => e.names ++ namesOfAll rest

end

mutual

def Expression.Legal : Expression → Prop
  | .number _ | .bool _ | .read _ => True
  | .assign _ e => e.Legal
  | .update _ _ e => e.Legal
  | .negate e => e.Legal
  | .not e => e.Legal
  | .binary _ a b => a.Legal ∧ b.Legal
  | .and a b => a.Legal ∧ b.Legal
  | .or a b => a.Legal ∧ b.Legal
  | .call f args => f.Legal ∧ LegalAll args ∧ args.length ≤ 255

def LegalAll : List Expression → Prop
  | [] => True
  | e :: rest => e.Legal ∧ LegalAll rest

end

/-- What surrounds a statement: whether there is a function, a loop in that function, or no scope at
all; the locals of the innermost scope and all locals of the function, the newest first. -/
structure Context where
  inFunction : Bool
  inLoop : Bool
  isGlobal : Bool
  here : List String
  scope : List String

namespace Context

def script : Context :=
  { inFunction := false, inLoop := false, isGlobal := true, here := [], scope := [] }

/-- Around the body of a function, which shares a scope with the parameters. -/
def body (parameters : List String) : Context :=
  { inFunction := true, inLoop := false, isGlobal := false, here := parameters.reverse,
    scope := parameters.reverse }

def inner (c : Context) : Context := { c with isGlobal := false, here := [] }

def looping (c : Context) : Context := { c with inLoop := true }

def add (c : Context) (names : List String) : Context :=
  { c with here := names ++ c.here, scope := names ++ c.scope }

/-- A local can be declared if its scope has no other with its name and there is a slot for it. The
first slot is taken by the function itself. -/
def Admits (c : Context) (name : String) : Prop :=
  c.isGlobal = false → name ∉ c.here ∧ c.scope.length + 1 < 256

/-- A variable can be declared if, in addition, a local does not occur in its own initializer. -/
def AdmitsVariable (c : Context) (name : String) (value : Option Expression) : Prop :=
  c.Admits name ∧ ∀ e ∈ value, e.Legal ∧ (c.isGlobal = false → name ∉ e.names)

end Context

def Initializer.Legal (c : Context) : Initializer → Prop
  | .none => True
  | .var name value => c.AdmitsVariable name value
  | .expression e => e.Legal

def Directive.Short (d : Directive) : Prop :=
  d.op.operand = .jump ∨ d.op.operand = .loop → d.operand ≤ 65535

/-- The constants and the jumps of a function fit. -/
structure Function.Compact (f : Function) (isGlobal : Bool) : Prop where
  constants : (f.entries isGlobal).length ≤ 256
  jumps : ∀ d ∈ f.code #[] 0 isGlobal, d.Short

mutual

def Statement.Legal (c : Context) : Statement → Prop
  | .empty => True
  | .print e => e.Legal
  | .expression e => e.Legal
  | .ifElse e s t => e.Legal ∧ s.Legal c ∧ t.Legal c
  | .while e s => e.Legal ∧ s.Legal c.looping
  | .for first e step s =>
    first.Legal c.inner ∧ (∀ x ∈ e, x.Legal) ∧ (∀ x ∈ step, x.Legal) ∧
      s.Legal (c.inner.add first.names).looping
  | .break => c.inLoop = true
  | .continue => c.inLoop = true
  | .return value => c.inFunction = true ∧ ∀ e ∈ value, e.Legal
  | .block body => LegalBody c.inner body

def Declaration.Legal (c : Context) : Declaration → Prop
  | .var name value => c.AdmitsVariable name value
  | .function f => c.Admits f.name ∧ f.Legal
  | .statement s => s.Legal c

def Function.Legal : Function → Prop
  | ⟨index, name, parameters, body, result⟩ =>
    parameters.Nodup ∧ parameters.length ≤ 255 ∧ LegalBody (.body parameters) body ∧
      (∀ e ∈ result, e.Legal) ∧ Function.Compact ⟨index, name, parameters, body, result⟩ false

def LegalBody (c : Context) : List Declaration → Prop
  | [] => True
  | d :: rest => d.Legal c ∧ LegalBody (c.add (d.names c.isGlobal)) rest

end

/-- A script is legal: outside all functions and loops, with globals instead of locals. -/
structure LegalScript (body : List Declaration) : Prop where
  legal : LegalBody .script body
  compact : (scriptOf body).Compact true

end Reckoner.Script
