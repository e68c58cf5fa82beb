import Reckoner.Proofs.Script.Assembly

/-!
What the code of a tree accesses. Locals stand above slot zero, which holds the callee, and globals are
defined only outside all scopes, under the names that are declared there.
-/

namespace Reckoner.Script

theorem slotOf_pos {name : String} {scope : List String} {slot : Nat}
    (found : slotOf name scope = some slot) : 1 ≤ slot := by
  induction scope with
  | nil => simp [slotOf] at found
  | cons x rest ih =>
      rw [slotOf] at found
      split at found
      · cases found
        omega
      · exact ih found

/-- A directive leaves slot zero alone and defines no globals but those with the given names. -/
def Directive.Tame (pool : Pool) (names : List String) (d : Directive) : Prop :=
  (d.op.operand = .slot → 1 ≤ d.operand) ∧
    (d.op = .defineGlobal → ∃ name ∈ names, d.operand = pool.find (.text name))

def Tame (pool : Pool) (names : List String) (code : List Directive) : Prop :=
  ∀ d ∈ code, d.Tame pool names

section

variable (pool : Pool) (names : List String)

theorem Directive.tame_plain {op : Operation} (n : Nat)
    (plain : op.operand ≠ .slot ∧ op ≠ .defineGlobal) : Directive.Tame pool names ⟨op, n⟩ :=
  ⟨fun slot => absurd slot plain.1, fun defines => absurd defines plain.2⟩

@[simp] theorem tame_nil : Tame pool names [] := by
  simp [Tame]

@[simp] theorem tame_cons (d : Directive) (rest : List Directive) :
    Tame pool names (d :: rest) ↔ d.Tame pool names ∧ Tame pool names rest := by
  simp [Tame]

@[simp] theorem tame_append (a b : List Directive) :
    Tame pool names (a ++ b) ↔ Tame pool names a ∧ Tame pool names b := by
  simp [Tame, or_imp, forall_and]

@[simp] theorem popCode_tame (n : Nat) : Tame pool names (popCode n) := by
  unfold popCode
  split <;> simp [Directive.tame_plain, Operation.operand]

@[simp] theorem Operator.code_tame (op : Operator) : Tame pool names op.code := by
  cases op <;> simp [Operator.code, Operator.operations, Directive.tame_plain, Operation.operand]

section

variable (scope : List String)

@[simp] theorem loadOf_tame (name : String) : (loadOf pool scope name).Tame pool names := by
  rw [loadOf]
  split
  · rename_i slot found
    exact ⟨fun _ => slotOf_pos found, nofun⟩
  · exact Directive.tame_plain pool names _ (by decide)

@[simp] theorem storeOf_tame (name : String) : (storeOf pool scope name).Tame pool names := by
  rw [storeOf]
  split
  · rename_i slot found
    exact ⟨fun _ => slotOf_pos found, nofun⟩
  · exact Directive.tame_plain pool names _ (by decide)

mutual

@[simp] theorem Expression.code_tame (e : Expression) : Tame pool names (e.code pool scope) := by
  cases e with
  | number d => simp [Expression.code, Directive.tame_plain, Operation.operand]
  | bool b => cases b <;> simp [Expression.code, Directive.tame_plain, Operation.operand]
  | read name => simp [Expression.code]
  | assign name e | update name op e =>
      have value := e.code_tame
      simp [Expression.code, value]
  | negate e | not e =>
      have value := e.code_tame
      simp [Expression.code, value, Directive.tame_plain, Operation.operand]
  | binary op a b | and a b | or a b =>
      have left := a.code_tame
      have right := b.code_tame
      simp [Expression.code, left, right, Directive.tame_plain, Operation.operand]
  | call f args =>
      have callee := f.code_tame
      have passed := codeOfAll_tame args
      simp [Expression.code, callee, passed, Directive.tame_plain, Operation.operand]

theorem codeOfAll_tame (es : List Expression) : Tame pool names (codeOfAll pool scope es) := by
  cases es with
  | nil => exact tame_nil pool names
  | cons e rest =>
      have first := e.code_tame
      have others := codeOfAll_tame rest
      simp [codeOfAll, first, others]

end

@[simp] theorem codeOfOptional_tame (value : Option Expression) :
    Tame pool names (codeOfOptional pool scope value) := by
  cases value <;> simp [codeOfOptional, Directive.tame_plain, Operation.operand]

theorem defineCode_tame (isGlobal : Bool) (name : String) (given : isGlobal = true → name ∈ names) :
    Tame pool names (defineCode pool isGlobal name) := by
  cases isGlobal with
  | false => exact tame_nil pool names
  | true =>
      intro d member
      obtain rfl := List.mem_singleton.mp member
      exact ⟨nofun, fun _ => ⟨name, given rfl, rfl⟩⟩

@[simp] theorem Initializer.code_tame (first : Initializer) :
    Tame pool names (first.code pool scope) := by
  cases first <;> simp [Initializer.code, Directive.tame_plain, Operation.operand]

@[simp] theorem testCode_tame (rest : Nat) (test : Option Expression) :
    Tame pool names (testCode pool scope rest test) := by
  cases test <;> simp [testCode, Directive.tame_plain, Operation.operand]

@[simp] theorem stepCode_tame (p test : Nat) (step : Option Expression) :
    Tame pool names (stepCode pool scope p test step) := by
  cases step <;> simp [stepCode, loopBack, Directive.tame_plain, Operation.operand]

@[simp] theorem closingCode_tame (test : Option Expression) :
    Tame pool names (closingCode test) := by
  cases test <;> simp [closingCode, Directive.tame_plain, Operation.operand]

theorem resolveFrom_tame {slots : List Slot} (drafted : Tame pool names (slots.map Slot.draft))
    (target p : Nat) : Tame pool names (resolveFrom target p slots) := by
  induction slots generalizing p with
  | nil => exact tame_nil pool names
  | cons slot rest ih =>
      simp only [List.map_cons, tame_cons] at drafted
      simp only [resolveFrom, tame_cons]
      refine ⟨?_, ih drafted.2 _⟩
      cases slot with
      | fixed d => exact drafted.1
      | exit => exact Directive.tame_plain pool names _ (by decide)

theorem loopCode_tame {p : Nat} {test step : Option Expression}
    {body : LoopSite → Nat → List Slot}
    (inside : ∀ site start, Tame pool names ((body site start).map Slot.draft)) :
    Tame pool names (loopCode pool scope p test step body) := by
  simp [loopCode, loopBack, Directive.tame_plain, Operation.operand,
    resolveFrom_tame pool names (inside _ _)]

end

variable (unit : Nat)

mutual

theorem Statement.code_tame (scope : List String) (loop : Option LoopSite) (p : Nat)
    (s : Statement) : Tame pool names ((s.code pool unit scope loop p).map Slot.draft) := by
  cases s with
  | empty => exact tame_nil pool names
  | print e | expression e => simp [Statement.code, Directive.tame_plain, Operation.operand]
  | ifElse c s t =>
      have consequent := fun p => s.code_tame scope loop p
      have alternative := fun p => t.code_tame scope loop p
      simp [Statement.code, Directive.tame_plain, Operation.operand, consequent, alternative]
  | «while» c s =>
      have round := fun site p => s.code_tame scope (some site) p
      simp [Statement.code, loopCode_tame pool names scope round]
  | «for» first c step s =>
      have round := fun site p => s.code_tame (first.names ++ scope) (some site) p
      simp [Statement.code, loopCode_tame pool names (first.names ++ scope) round]
  | «break» =>
      cases loop with
      | none => exact tame_nil pool names
      | some site => simp [Statement.code, Slot.draft, Directive.tame_plain, Operation.operand]
  | «continue» =>
      cases loop with
      | none => exact tame_nil pool names
      | some site => simp [Statement.code, loopBack, Directive.tame_plain, Operation.operand]
  | «return» value => simp [Statement.code, Directive.tame_plain, Operation.operand]
  | block body =>
      have inside := codeOfBody_tame false body nofun scope loop p
      simp [Statement.code, inside]

theorem Declaration.code_tame (isGlobal : Bool) (d : Declaration)
    (given : isGlobal = true → ∀ name ∈ d.names false, name ∈ names) (scope : List String)
    (loop : Option LoopSite) (p : Nat) :
    Tame pool names ((d.code pool unit isGlobal scope loop p).map Slot.draft) := by
  cases d with
  | var name value =>
      have defined := defineCode_tame pool names isGlobal name
        fun outside => given outside name List.mem_cons_self
      simp [Declaration.code, defined]
  | function f =>
      have defined := defineCode_tame pool names isGlobal f.name
        fun outside => given outside f.name List.mem_cons_self
      simp [Declaration.code, defined, Directive.tame_plain, Operation.operand]
  | statement s =>
      have inside := s.code_tame scope loop p
      simp [Declaration.code, inside]

theorem codeOfBody_tame (isGlobal : Bool) (body : List Declaration)
    (given : isGlobal = true → ∀ name ∈ namesOf false body, name ∈ names) (scope : List String)
    (loop : Option LoopSite) (p : Nat) :
    Tame pool names ((codeOfBody pool unit isGlobal scope loop p body).map Slot.draft) := by
  cases body with
  | nil => exact tame_nil pool names
  | cons d rest =>
      have first := d.code_tame isGlobal (fun outside name member =>
        given outside name (List.mem_append_right _ member)) scope loop p
      have others := fun p => codeOfBody_tame isGlobal rest (fun outside name member =>
        given outside name (List.mem_append_left _ member)) (d.names isGlobal ++ scope) loop p
      simp [codeOfBody, first, others]

end

theorem Function.code_tame (f : Function) (isGlobal : Bool)
    (given : isGlobal = true → ∀ name ∈ namesOf false f.body, name ∈ names) :
    Tame pool names (f.code pool unit isGlobal) := by
  have inside := codeOfBody_tame pool names unit isGlobal f.body given f.scope none 0
  simp [Function.code, inside, Directive.tame_plain, Operation.operand]

end

end Reckoner.Script
