import Reckoner.Proofs.Script.Tree

/-!
The code of a tree, said without reading tokens and without patching. Instructions carry their
operands as unbounded numbers; the constants are looked up in the finished pool. A `break` is a
slot of its own until the loop around it is complete and the way out of it is known.
-/

namespace Reckoner.Script

/-- An instruction before it is written as bytes. The operand is zero where there is none. -/
structure Directive where
  op : Operation
  operand : Nat := 0
  deriving Repr, DecidableEq

namespace Directive

def size (d : Directive) : Nat := 1 + d.op.operand.width

def operandBytes (operand : Nat) : (width : Nat) → List UInt8
  | 0 => []
  | 1 => [operand.toUInt8]
  | _ => [(operand / 256).toUInt8, operand.toUInt8]

def bytes (d : Directive) : List UInt8 := d.op.byte :: operandBytes d.operand d.op.operand.width

@[simp] theorem length_bytes (d : Directive) : d.bytes.length = d.size := by
  obtain ⟨op, operand⟩ := d
  cases op <;> rfl

theorem size_pos (d : Directive) : 0 < d.size := by
  rw [size]
  omega

end Directive

/-- A directive, or a jump out of the loop around it whose distance is still open. -/
inductive Slot where
  | fixed (d : Directive)
  | exit
  deriving Repr, DecidableEq

namespace Slot

def unset : Nat := 0xffff

def draft : Slot → Directive
  | .fixed d => d
  | .exit => ⟨.jump, unset⟩

def size (s : Slot) : Nat := s.draft.size

def resolve (target p : Nat) : Slot → Directive
  | .fixed d => d
  | .exit => ⟨.jump, target - (p + 3)⟩

end Slot

def codeSize : List Directive → Nat
  | [] => 0
  | d :: rest => d.size + codeSize rest

def slotsSize : List Slot → Nat
  | [] => 0
  | s :: rest => s.size + slotsSize rest

@[simp] theorem codeSize_append (a b : List Directive) :
    codeSize (a ++ b) = codeSize a + codeSize b := by
  induction a with
  | nil => simp [codeSize]
  | cons d rest ih => simp only [List.cons_append, codeSize, ih]; omega

@[simp] theorem slotsSize_append (a b : List Slot) :
    slotsSize (a ++ b) = slotsSize a + slotsSize b := by
  induction a with
  | nil => simp [slotsSize]
  | cons s rest ih => simp only [List.cons_append, slotsSize, ih]; omega

def resolveFrom (target : Nat) : (p : Nat) → List Slot → List Directive
  | _, [] => []
  | p, s :: rest => s.resolve target p :: resolveFrom target (p + s.size) rest

def fixedSlots (code : List Directive) : List Slot := code.map Slot.fixed

@[simp] theorem fixedSlots_append (a b : List Directive) :
    fixedSlots (a ++ b) = fixedSlots a ++ fixedSlots b := List.map_append

@[simp] theorem slotsSize_fixedSlots (code : List Directive) :
    slotsSize (fixedSlots code) = codeSize code := by
  induction code with
  | nil => rfl
  | cons d rest ih => simp only [fixedSlots, List.map_cons, slotsSize] at ih ⊢; rw [ih]; rfl

@[simp] theorem map_draft_fixedSlots (code : List Directive) :
    (fixedSlots code).map Slot.draft = code := by
  rw [fixedSlots, List.map_map]
  exact List.map_id code

theorem resolveFrom_append (target p : Nat) (a b : List Slot) :
    resolveFrom target p (a ++ b) =
      resolveFrom target p a ++ resolveFrom target (p + slotsSize a) b := by
  induction a generalizing p with
  | nil => rfl
  | cons slot rest ih =>
      rw [List.cons_append, resolveFrom, resolveFrom, slotsSize, ih, List.cons_append,
        Nat.add_assoc]

@[simp] theorem resolveFrom_fixedSlots (target p : Nat) (code : List Directive) :
    resolveFrom target p (fixedSlots code) = code := by
  induction code generalizing p with
  | nil => rfl
  | cons d rest ih => exact congrArg (d :: ·) (ih (p + d.size))

@[simp] theorem codeSize_resolveFrom (target p : Nat) (slots : List Slot) :
    codeSize (resolveFrom target p slots) = slotsSize slots := by
  induction slots generalizing p with
  | nil => rfl
  | cons slot rest ih =>
      rw [resolveFrom, codeSize, slotsSize, ih]
      cases slot <;> rfl

abbrev Pool := Array Constant

def Pool.find (pool : Pool) (c : Constant) : Nat := pool.findIdx fun old => old.same c

def isRoutine (id : Identity) : Constant → Bool
  | .routine r => r.identity == id
  | _ => false

def Pool.findRoutine (pool : Pool) (id : Identity) : Nat := pool.findIdx (isRoutine id)

/-- The slot of the innermost local with a name. The names above slot zero are listed from the
innermost outwards. -/
def slotOf (name : String) : (scope : List String) → Option Nat
  | [] => none
  | x :: rest => if x == name then some (rest.length + 1) else slotOf name rest

namespace Operator

def operations : Operator → List Operation
  | .add => [.add]
  | .subtract => [.subtract]
  | .multiply => [.multiply]
  | .divide => [.divide]
  | .power => [.exponent]
  | .modulo => [.modulo]
  | .equal => [.equal]
  | .notEqual => [.equal, .not]
  | .greater => [.greater]
  | .greaterEqual => [.less, .not]
  | .less => [.less]
  | .lessEqual => [.greater, .not]

def code (op : Operator) : List Directive := op.operations.map fun o => { op := o }

end Operator

section

variable (pool : Pool) (scope : List String)

def loadOf (name : String) : Directive :=
  match slotOf name scope with
  | some slot => ⟨.loadLocal, slot⟩
  | none => ⟨.loadGlobal, pool.find (.text name)⟩

def storeOf (name : String) : Directive :=
  match slotOf name scope with
  | some slot => ⟨.assignLocal, slot⟩
  | none => ⟨.assignGlobal, pool.find (.text name)⟩

mutual

/-- The code that leaves the value of an expression on the stack. -/
def Expression.code : Expression → List Directive
  | .number d => [⟨.constant, pool.find (.number d)⟩]
  | .bool b => [{ op := if b then .true else .false }]
  | .read name => [loadOf pool scope name]
  | .assign name e => e.code ++ [storeOf pool scope name]
  | .update name op e =>
    loadOf pool scope name :: (e.code ++ op.code ++ [storeOf pool scope name])
  | .negate e => e.code ++ [{ op := .negate }]
  | .not e => e.code ++ [{ op := .not }]
  | .binary op a b => a.code ++ b.code ++ op.code
  | .and a b => a.code ++ ⟨.jumpIfFalse, codeSize b.code + 1⟩ :: { op := .pop } :: b.code
  | .or a b =>
    a.code ++ ⟨.jumpIfFalse, 3⟩ :: ⟨.jump, codeSize b.code + 1⟩ :: { op := .pop } :: b.code
  | .call f args => f.code ++ codeOfAll args ++ [⟨.call, args.length⟩]

def codeOfAll : List Expression → List Directive
  | [] => []
  | e :: rest => e.code ++ codeOfAll rest

end

def codeOfOptional : Option Expression → List Directive
  | some e => e.code pool scope
  | none => [{ op := .false }]

end

def popCode : Nat → List Directive
  | 0 => []
  | 1 => [{ op := .pop }]
  | n => [⟨.popN, n⟩]

def loopBack (p start : Nat) : Directive := ⟨.loop, p + 3 - start⟩

/-- What `break` and `continue` need: where the loop goes on, and the number of locals around it. -/
structure LoopSite where
  start : Nat
  height : Nat
  deriving Repr, DecidableEq

/-- The name of a global, defined from the value on top. Inside a scope the value just stays. -/
def defineCode (pool : Pool) (isGlobal : Bool) (name : String) : List Directive :=
  if isGlobal then [⟨.defineGlobal, pool.find (.text name)⟩] else []

def Initializer.code (pool : Pool) (scope : List String) : Initializer → List Directive
  | .none => []
  | .var _ value => codeOfOptional pool scope value
  | .expression e => e.code pool scope ++ [{ op := .pop }]

def testCode (pool : Pool) (scope : List String) (rest : Nat) : Option Expression → List Directive
  | none => []
  | some e => e.code pool scope ++ [⟨.jumpIfFalse, rest⟩, { op := .pop }]

theorem codeSize_testCode (pool : Pool) (scope : List String) (rest other : Nat)
    (test : Option Expression) :
    codeSize (testCode pool scope rest test) = codeSize (testCode pool scope other test) := by
  cases test with
  | none => rfl
  | some e =>
      rw [testCode, testCode, codeSize_append, codeSize_append]
      rfl

def stepCode (pool : Pool) (scope : List String) (p test : Nat) :
    Option Expression → List Directive
  | none => []
  | some e =>
    let code := e.code pool scope
    ⟨.jump, codeSize code + 4⟩ :: (code ++ [{ op := .pop }, loopBack (p + codeSize code + 4) test])

def stepStart (p test : Nat) : Option Expression → Nat
  | none => test
  | some _ => p + 3

theorem stepStart_le (pool : Pool) (scope : List String) {p test : Nat} (before : test ≤ p)
    (step : Option Expression) :
    stepStart p test step ≤ p + codeSize (stepCode pool scope p test step) := by
  cases step with
  | none => exact before
  | some e =>
      simp only [stepStart, stepCode, codeSize, Directive.size, Operation.operand, Operand.width]
      omega

def closingCode (test : Option Expression) : List Directive :=
  if test.isSome then [{ op := .pop }] else []

/-- A loop at offset `p`, with or without a test and a last clause. The code of the body is given
for the loop around it and the offset where it starts. -/
def loopCode (pool : Pool) (scope : List String) (p : Nat) (test step : Option Expression)
    (body : LoopSite → Nat → List Slot) : List Directive :=
  let clause := p + codeSize (testCode pool scope 0 test)
  let increment := stepCode pool scope clause p step
  let start := clause + codeSize increment
  let again := stepStart clause p step
  let slots := body ⟨again, scope.length⟩ start
  let back := start + slotsSize slots
  testCode pool scope (codeSize increment + slotsSize slots + 4) test ++ increment
    ++ resolveFrom (back + 3 + codeSize (closingCode test)) start slots
    ++ loopBack back again :: closingCode test

section

variable (pool : Pool) (unit : Nat)

mutual

def Statement.code (scope : List String) (loop : Option LoopSite) (p : Nat) :
    Statement → List Slot
  | .empty => []
  | .print e => fixedSlots (e.code pool scope ++ [{ op := .print }])
  | .expression e => fixedSlots (e.code pool scope ++ [{ op := .pop }])
  | .ifElse c s t =>
    let test := c.code pool scope
    let consequent := s.code scope loop (p + codeSize test + 4)
    let alternative :=
      t.code scope loop (p + codeSize test + 4 + slotsSize consequent + 4)
    fixedSlots (test ++ [⟨.jumpIfFalse, slotsSize consequent + 4⟩, { op := .pop }])
      ++ consequent
      ++ fixedSlots [⟨.jump, slotsSize alternative + 1⟩, { op := .pop }]
      ++ alternative
  | .while c s =>
    fixedSlots (loopCode pool scope p (some c) none fun site p => s.code scope (some site) p)
  | .for first c step s =>
    let inner := first.names ++ scope
    let opening := first.code pool scope
    fixedSlots (opening
      ++ (loopCode pool inner (p + codeSize opening) c step fun site p =>
        s.code inner (some site) p)
      ++ popCode first.names.length)
  | .break =>
    match loop with
    | none => []
    | some site => fixedSlots (popCode (scope.length - site.height)) ++ [.exit]
  | .continue =>
    match loop with
    | none => []
    | some site =>
      let pops := popCode (scope.length - site.height)
      fixedSlots (pops ++ [loopBack (p + codeSize pops) site.start])
  | .return value => fixedSlots (codeOfOptional pool scope value ++ [{ op := .return }])
  | .block body =>
    codeOfBody false scope loop p body ++ fixedSlots (popCode (namesOf false body).length)

def Declaration.code (isGlobal : Bool) (scope : List String) (loop : Option LoopSite) (p : Nat) :
    Declaration → List Slot
  | .var name value =>
    fixedSlots (codeOfOptional pool scope value ++ defineCode pool isGlobal name)
  | .function f =>
    fixedSlots (⟨.constant, pool.findRoutine ⟨unit, f.index⟩⟩ :: defineCode pool isGlobal f.name)
  | .statement s => s.code scope loop p

def codeOfBody (isGlobal : Bool) (scope : List String) (loop : Option LoopSite) (p : Nat) :
    List Declaration → List Slot
  | [] => []
  | d :: rest =>
    let code := d.code isGlobal scope loop p
    code ++ codeOfBody isGlobal (d.names isGlobal ++ scope) loop (p + slotsSize code) rest

end

end

namespace Function

def scope (f : Function) : List String := f.parameters.reverse

def innerScope (f : Function) (isGlobal : Bool) : List String := namesOf isGlobal f.body ++ f.scope

/-- The whole code of a function, or of a script, whose outermost names are globals. Outside all
loops there is no open jump. -/
def code (f : Function) (pool : Pool) (unit : Nat) (isGlobal : Bool) : List Directive :=
  (codeOfBody pool unit isGlobal f.scope none 0 f.body).map Slot.draft
    ++ codeOfOptional pool (f.innerScope isGlobal) f.result ++ [{ op := .return }]

end Function

end Reckoner.Script
