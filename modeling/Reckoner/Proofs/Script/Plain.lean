import Reckoner.Proofs.Script.Grammar
import Reckoner.Proofs.Script.Legality

/-!
Trees without shorthands. A compound assignment says no more than an assignment of an operation on the
old value, and a `while` loop no more than a `for` loop with nothing but a test.
-/

namespace Reckoner.Script

mutual

def Expression.plain : Expression → Expression
  | .number d => .number d
  | .bool b => .bool b
  | .read name => .read name
  | .assign name e => .assign name e.plain
  | .update name op e => .assign name (.binary op (.read name) e.plain)
  | .negate e => .negate e.plain
  | .not e => .not e.plain
  | .binary op a b => .binary op a.plain b.plain
  | .and a b => .and a.plain b.plain
  | .or a b => .or a.plain b.plain
  | .call f args => .call f.plain (plainOfAll args)

def plainOfAll : List Expression → List Expression
  | [] => []
  | e :: rest => e.plain :: plainOfAll rest

end

def Initializer.plain : Initializer → Initializer
  | .none => .none
  | .var name value => .var name (value.map Expression.plain)
  | .expression e => .expression e.plain

mutual

/-- The statement with every compound assignment and every `while` loop written out. -/
def Statement.plain : Statement → Statement
  | .empty => .empty
  | .print e => .print e.plain
  | .expression e => .expression e.plain
  | .ifElse c s t => .ifElse c.plain s.plain t.plain
  | .while c s => .for .none (some c.plain) none s.plain
  | .for first c step s =>
    .for first.plain (c.map Expression.plain) (step.map Expression.plain) s.plain
  | .break => .break
  | .continue => .continue
  | .return value => .return (value.map Expression.plain)
  | .block body => .block (plainOfBody body)

def Declaration.plain : Declaration → Declaration
  | .var name value => .var name (value.map Expression.plain)
  | .function f => .function f.plain
  | .statement s => .statement s.plain

def Function.plain : Function → Function
  | ⟨index, name, parameters, body, result⟩ =>
    ⟨index, name, parameters, plainOfBody body, result.map Expression.plain⟩

def plainOfBody : List Declaration → List Declaration
  | [] => []
  | d :: rest => d.plain :: plainOfBody rest

end

@[simp] theorem length_plainOfAll (args : List Expression) :
    (plainOfAll args).length = args.length := by
  induction args with
  | nil => rfl
  | cons e rest ih => rw [plainOfAll, List.length_cons, List.length_cons, ih]

@[simp] theorem Initializer.names_plain (first : Initializer) : first.plain.names = first.names := by
  cases first <;> rfl

namespace Function

variable (f : Function)

theorem plain_eq : f.plain =
    ⟨f.index, f.name, f.parameters, plainOfBody f.body, f.result.map Expression.plain⟩ := by
  cases f
  rw [plain]

@[simp] theorem index_plain : f.plain.index = f.index := by rw [plain_eq]

@[simp] theorem name_plain : f.plain.name = f.name := by rw [plain_eq]

@[simp] theorem parameters_plain : f.plain.parameters = f.parameters := by rw [plain_eq]

@[simp] theorem body_plain : f.plain.body = plainOfBody f.body := by rw [plain_eq]

@[simp] theorem result_plain : f.plain.result = f.result.map Expression.plain := by rw [plain_eq]

@[simp] theorem scope_plain : f.plain.scope = f.scope := by rw [scope, scope, parameters_plain]

end Function

@[simp] theorem Declaration.names_plain (isGlobal : Bool) (d : Declaration) :
    d.plain.names isGlobal = d.names isGlobal := by
  cases d with
  | function f => simp only [plain, names, Function.name_plain]
  | _ => rfl

@[simp] theorem namesOf_plain (isGlobal : Bool) (body : List Declaration) :
    namesOf isGlobal (plainOfBody body) = namesOf isGlobal body := by
  induction body with
  | nil => rfl
  | cons d rest ih => rw [plainOfBody, namesOf, namesOf, ih, Declaration.names_plain]

@[simp] theorem Function.innerScope_plain (f : Function) (isGlobal : Bool) :
    f.plain.innerScope isGlobal = f.innerScope isGlobal := by
  rw [innerScope, innerScope, body_plain, namesOf_plain, scope_plain]

/-! The functions inside -/

mutual

theorem Statement.functions_plain (s : Statement) :
    s.plain.functions = s.functions.map Function.plain := by
  cases s with
  | ifElse c s t =>
      simp only [Statement.plain, Statement.functions, List.map_append, s.functions_plain, t.functions_plain]
  | «while» c s => exact s.functions_plain
  | «for» first c step s => exact s.functions_plain
  | block body => exact functionsOf_plain body
  | _ => rfl

theorem Declaration.functions_plain (d : Declaration) :
    d.plain.functions = d.functions.map Function.plain := by
  cases d with
  | statement s => exact s.functions_plain
  | _ => rfl

theorem functionsOf_plain (body : List Declaration) :
    functionsOf (plainOfBody body) = (functionsOf body).map Function.plain := by
  cases body with
  | nil => rfl
  | cons d rest =>
      simp only [plainOfBody, functionsOf, List.map_append, d.functions_plain, functionsOf_plain rest]

end

/-! The code -/

section

variable (pool : Pool) (scope : List String)

mutual

theorem Expression.code_plain (e : Expression) : e.plain.code pool scope = e.code pool scope := by
  cases e with
  | number | bool | read => rfl
  | assign name e => simp only [Expression.plain, Expression.code, e.code_plain]
  | update name op e =>
      simp only [Expression.plain, Expression.code, e.code_plain, List.nil_append, List.cons_append]
  | negate e => simp only [Expression.plain, Expression.code, e.code_plain]
  | not e => simp only [Expression.plain, Expression.code, e.code_plain]
  | binary op a b => simp only [Expression.plain, Expression.code, a.code_plain, b.code_plain]
  | and a b => simp only [Expression.plain, Expression.code, a.code_plain, b.code_plain]
  | or a b => simp only [Expression.plain, Expression.code, a.code_plain, b.code_plain]
  | call f args =>
      simp only [Expression.plain, Expression.code, f.code_plain, codeOfAll_plain args, length_plainOfAll]

theorem codeOfAll_plain (args : List Expression) :
    codeOfAll pool scope (plainOfAll args) = codeOfAll pool scope args := by
  cases args with
  | nil => rfl
  | cons e rest => simp only [plainOfAll, codeOfAll, e.code_plain, codeOfAll_plain rest]

end

theorem codeOfOptional_plain (value : Option Expression) :
    codeOfOptional pool scope (value.map Expression.plain) = codeOfOptional pool scope value := by
  cases value with
  | none => rfl
  | some e => exact e.code_plain pool scope

theorem Initializer.code_plain (first : Initializer) :
    first.plain.code pool scope = first.code pool scope := by
  cases first with
  | none => rfl
  | var name value => exact codeOfOptional_plain pool scope value
  | expression e => simp only [plain, code, e.code_plain]

theorem testCode_plain (rest : Nat) (test : Option Expression) :
    testCode pool scope rest (test.map Expression.plain) = testCode pool scope rest test := by
  cases test with
  | none => rfl
  | some e => simp only [Option.map_some, testCode, e.code_plain]

theorem stepCode_plain (p test : Nat) (step : Option Expression) :
    stepCode pool scope p test (step.map Expression.plain) = stepCode pool scope p test step := by
  cases step with
  | none => rfl
  | some e => simp only [Option.map_some, stepCode, e.code_plain]

theorem loopCode_plain (p : Nat) (test step : Option Expression)
    (body : LoopSite → Nat → List Slot) :
    loopCode pool scope p (test.map Expression.plain) (step.map Expression.plain) body =
      loopCode pool scope p test step body := by
  have start : ∀ p q, stepStart p q (step.map Expression.plain) = stepStart p q step := by
    intro p q
    cases step <;> rfl
  have closing : closingCode (test.map Expression.plain) = closingCode test := by
    cases test <;> rfl
  simp only [loopCode, testCode_plain, stepCode_plain, start, closing]

end

section

variable (pool : Pool) (unit : Nat)

mutual

theorem Statement.code_plain (s : Statement) (scope : List String) (loop : Option LoopSite) (p : Nat) :
    s.plain.code pool unit scope loop p = s.code pool unit scope loop p := by
  cases s with
  | empty | «break» | «continue» => rfl
  | print e => simp only [Statement.plain, Statement.code, e.code_plain]
  | expression e => simp only [Statement.plain, Statement.code, e.code_plain]
  | ifElse c s t => simp only [Statement.plain, Statement.code, c.code_plain, s.code_plain, t.code_plain]
  | «while» c s =>
      have looped := loopCode_plain pool scope p (some c) none fun site p =>
        s.code pool unit scope (some site) p
      rw [Option.map_some, Option.map_none] at looped
      simp only [Statement.plain, Statement.code, s.code_plain, Initializer.names, Initializer.code, List.nil_append,
        List.length_nil, popCode, codeSize, Nat.add_zero, List.append_nil, looped]
  | «for» first c step s =>
      simp only [Statement.plain, Statement.code, s.code_plain, first.names_plain, first.code_plain, loopCode_plain]
  | «return» value => simp only [Statement.plain, Statement.code, codeOfOptional_plain]
  | block body => simp only [Statement.plain, Statement.code, codeOfBody_plain body, namesOf_plain]

theorem Declaration.code_plain (d : Declaration) (isGlobal : Bool) (scope : List String)
    (loop : Option LoopSite) (p : Nat) :
    d.plain.code pool unit isGlobal scope loop p = d.code pool unit isGlobal scope loop p := by
  cases d with
  | var name value => simp only [Declaration.plain, Declaration.code, codeOfOptional_plain]
  | function f => simp only [Declaration.plain, Declaration.code, f.index_plain, f.name_plain]
  | statement s => exact s.code_plain scope loop p

theorem codeOfBody_plain (body : List Declaration) (isGlobal : Bool) (scope : List String)
    (loop : Option LoopSite) (p : Nat) : codeOfBody pool unit isGlobal scope loop p (plainOfBody body) =
      codeOfBody pool unit isGlobal scope loop p body := by
  cases body with
  | nil => rfl
  | cons d rest =>
      simp only [plainOfBody, codeOfBody, d.code_plain, d.names_plain, codeOfBody_plain rest]

end

theorem Function.code_plain (f : Function) (isGlobal : Bool) :
    f.plain.code pool unit isGlobal = f.code pool unit isGlobal := by
  simp only [code, scope_plain, body_plain, codeOfBody_plain, result_plain, codeOfOptional_plain,
    innerScope_plain]

end

/-! The constants -/

theorem Entry.same_self (e : Entry) : e.same e = true := by
  cases e with
  | number d => exact d.same_self
  | name text => exact beq_self_eq_true text
  | function index => exact beq_self_eq_true index

theorem keep_keep (es : List Entry) (e : Entry) : keep (keep es e) e = keep es e := by
  have there : (keep es e).any (fun old => old.same e) = true := by
    by_cases old : (es.any fun old => old.same e) = true
    · rw [keep, if_pos old]
      exact old
    · rw [keep, if_neg old, List.any_append, List.any_cons, e.same_self, Bool.true_or, Bool.or_true]
  rw [keep.eq_1 (keep es e), if_pos there]

/-- The same constants are met in the same order, but for some that have been met before. -/
def Alike (new other : List Entry) : Prop := ∀ es, gather es new = gather es other

theorem Alike.refl (new : List Entry) : Alike new new := fun _ => rfl

theorem Alike.append {a b c d : List Entry} (first : Alike a b) (second : Alike c d) :
    Alike (a ++ c) (b ++ d) := by
  intro es
  rw [gather_append, gather_append, first es, second]

theorem alike_nameEntries (scope : List String) (name : String) :
    Alike (nameEntries scope name ++ nameEntries scope name) (nameEntries scope name) := by
  rw [nameEntries]
  split
  · exact .refl []
  · exact fun es => keep_keep es (.name name)

section

variable (scope : List String)

mutual

theorem Expression.entries_plain (e : Expression) : Alike (e.plain.entries scope) (e.entries scope) := by
  cases e with
  | number | bool | read => exact .refl _
  | assign name e => exact .append (.refl _) e.entries_plain
  | update name op e =>
      have named := Alike.append (alike_nameEntries scope name) e.entries_plain
      rw [List.append_assoc] at named
      exact named
  | negate e => exact e.entries_plain
  | not e => exact e.entries_plain
  | binary op a b => exact .append a.entries_plain b.entries_plain
  | and a b => exact .append a.entries_plain b.entries_plain
  | or a b => exact .append a.entries_plain b.entries_plain
  | call f args => exact .append f.entries_plain (entriesOfAll_plain args)

theorem entriesOfAll_plain (args : List Expression) :
    Alike (entriesOfAll scope (plainOfAll args)) (entriesOfAll scope args) := by
  cases args with
  | nil => exact .refl []
  | cons e rest => exact .append e.entries_plain (entriesOfAll_plain rest)

end

theorem entriesOfOptional_plain (value : Option Expression) :
    Alike (entriesOfOptional scope (value.map Expression.plain)) (entriesOfOptional scope value) := by
  cases value with
  | none => exact .refl []
  | some e => exact e.entries_plain scope

theorem Initializer.entries_plain (first : Initializer) :
    Alike (first.plain.entries scope) (first.entries scope) := by
  cases first with
  | none => exact .refl []
  | var name value => exact entriesOfOptional_plain scope value
  | expression e => exact e.entries_plain scope

end

mutual

theorem Statement.entries_plain (s : Statement) (scope : List String) :
    Alike (s.plain.entries scope) (s.entries scope) := by
  cases s with
  | empty | «break» | «continue» => exact .refl []
  | print e => exact e.entries_plain scope
  | expression e => exact e.entries_plain scope
  | ifElse c s t =>
      exact .append (.append (c.entries_plain scope) (s.entries_plain scope)) (t.entries_plain scope)
  | «while» c s =>
      have looped := Alike.append (c.entries_plain scope) (s.entries_plain scope)
      rw [← List.append_nil (c.plain.entries scope)] at looped
      exact looped
  | «for» first c step s =>
      simp only [Statement.plain, Statement.entries, first.names_plain]
      exact .append (.append (.append (first.entries_plain scope) (entriesOfOptional_plain _ c))
        (entriesOfOptional_plain _ step)) (s.entries_plain _)
  | «return» value => exact entriesOfOptional_plain scope value
  | block body => exact entriesOfBody_plain body false scope

theorem Declaration.entries_plain (d : Declaration) (isGlobal : Bool) (scope : List String) :
    Alike (d.plain.entries isGlobal scope) (d.entries isGlobal scope) := by
  cases d with
  | var name value => exact .append (.refl _) (entriesOfOptional_plain scope value)
  | function f =>
      simp only [Declaration.plain, Declaration.entries, f.name_plain, f.index_plain]
      exact .refl _
  | statement s => exact s.entries_plain scope

theorem entriesOfBody_plain (body : List Declaration) (isGlobal : Bool) (scope : List String) :
    Alike (entriesOfBody isGlobal scope (plainOfBody body)) (entriesOfBody isGlobal scope body) := by
  cases body with
  | nil => exact .refl []
  | cons d rest =>
      simp only [plainOfBody, entriesOfBody, d.names_plain]
      exact .append (d.entries_plain isGlobal scope) (entriesOfBody_plain rest isGlobal _)

end

theorem Function.entries_plain (f : Function) (isGlobal : Bool) :
    f.plain.entries isGlobal = f.entries isGlobal := by
  simp only [entries, scope_plain, body_plain, result_plain, innerScope_plain]
  exact Alike.append (entriesOfBody_plain f.body isGlobal f.scope)
    (entriesOfOptional_plain _ f.result) []

/-! Legality -/

mutual

theorem Expression.mem_names_plain (e : Expression) (name : String) :
    name ∈ e.plain.names ↔ name ∈ e.names := by
  cases e with
  | number | bool | read => exact Iff.rfl
  | assign other e =>
      simp only [Expression.plain, Expression.names, List.mem_cons, e.mem_names_plain]
  | update other op e =>
      simp only [Expression.plain, Expression.names, List.mem_cons, List.mem_append, e.mem_names_plain,
        List.not_mem_nil, or_false, or_self_left]
  | negate e => exact e.mem_names_plain name
  | not e => exact e.mem_names_plain name
  | binary op a b =>
      simp only [Expression.plain, Expression.names, List.mem_append, a.mem_names_plain,
        b.mem_names_plain]
  | and a b =>
      simp only [Expression.plain, Expression.names, List.mem_append, a.mem_names_plain,
        b.mem_names_plain]
  | or a b =>
      simp only [Expression.plain, Expression.names, List.mem_append, a.mem_names_plain,
        b.mem_names_plain]
  | call f args =>
      simp only [Expression.plain, Expression.names, List.mem_append, f.mem_names_plain,
        mem_namesOfAll_plain args]

theorem mem_namesOfAll_plain (args : List Expression) (name : String) :
    name ∈ namesOfAll (plainOfAll args) ↔ name ∈ namesOfAll args := by
  cases args with
  | nil => exact Iff.rfl
  | cons e rest =>
      simp only [plainOfAll, namesOfAll, List.mem_append, e.mem_names_plain, mem_namesOfAll_plain rest]

end

mutual

theorem Expression.legal_plain (e : Expression) : e.plain.Legal ↔ e.Legal := by
  cases e with
  | number | bool | read => exact Iff.rfl
  | assign name e => exact e.legal_plain
  | update name op e => exact (and_iff_right trivial).trans e.legal_plain
  | negate e => exact e.legal_plain
  | not e => exact e.legal_plain
  | binary op a b => exact and_congr a.legal_plain b.legal_plain
  | and a b => exact and_congr a.legal_plain b.legal_plain
  | or a b => exact and_congr a.legal_plain b.legal_plain
  | call f args =>
      simp only [Expression.plain, Expression.Legal, f.legal_plain, legalAll_plain args,
        length_plainOfAll]

theorem legalAll_plain (args : List Expression) : LegalAll (plainOfAll args) ↔ LegalAll args := by
  cases args with
  | nil => exact Iff.rfl
  | cons e rest => exact and_congr e.legal_plain (legalAll_plain rest)

end

theorem forall_legal_plain (value : Option Expression) :
    (∀ e ∈ value.map Expression.plain, e.Legal) ↔ ∀ e ∈ value, e.Legal := by
  cases value with
  | none => exact iff_of_true nofun nofun
  | some e => simp only [Option.map_some, Option.mem_some_iff, forall_eq', e.legal_plain]

theorem Context.admitsVariable_plain (c : Context) (name : String) (value : Option Expression) :
    c.AdmitsVariable name (value.map Expression.plain) ↔ c.AdmitsVariable name value := by
  cases value with
  | none => exact Iff.rfl
  | some e =>
      simp only [AdmitsVariable, Option.map_some, Option.mem_some_iff, forall_eq', e.legal_plain,
        e.mem_names_plain]

theorem Initializer.legal_plain (c : Context) (first : Initializer) :
    first.plain.Legal c ↔ first.Legal c := by
  cases first with
  | none => exact Iff.rfl
  | var name value => exact c.admitsVariable_plain name value
  | expression e => exact e.legal_plain

theorem Statement.legal_inner (s : Statement) (c : Context) : s.Legal c.inner ↔ s.Legal c := by
  cases s with
  | ifElse e s t => exact and_congr Iff.rfl (and_congr (s.legal_inner c) (t.legal_inner c))
  | «while» e s => exact and_congr Iff.rfl (s.legal_inner c.looping)
  | _ => exact Iff.rfl

theorem Function.compact_plain (f : Function) (isGlobal : Bool) :
    f.plain.Compact isGlobal ↔ f.Compact isGlobal := by
  constructor
  · rintro ⟨constants, jumps⟩
    rw [f.entries_plain] at constants
    rw [f.code_plain] at jumps
    exact ⟨constants, jumps⟩
  · rintro ⟨constants, jumps⟩
    rw [← f.entries_plain] at constants
    rw [← f.code_plain] at jumps
    exact ⟨constants, jumps⟩

mutual

theorem Statement.legal_plain (s : Statement) (c : Context) : s.plain.Legal c ↔ s.Legal c := by
  cases s with
  | empty | «break» | «continue» => exact Iff.rfl
  | print e => exact e.legal_plain
  | expression e => exact e.legal_plain
  | ifElse e s t =>
      exact and_congr e.legal_plain (and_congr (s.legal_plain c) (t.legal_plain c))
  | «while» e s =>
      have tested := forall_legal_plain (some e)
      have body := (s.plain.legal_inner c.looping).trans (s.legal_plain c.looping)
      simp only [Option.map_some, Option.mem_some_iff, forall_eq'] at tested
      constructor
      · rintro ⟨-, test, -, inner⟩
        exact ⟨tested.mp (test _ rfl), body.mp inner⟩
      · rintro ⟨test, inner⟩
        refine ⟨trivial, fun x member => ?_, fun x member => absurd member (Option.not_mem_none x),
          body.mpr inner⟩
        rw [← Option.some.inj member]
        exact tested.mpr test
  | «for» first e step s =>
      simp only [Statement.plain, Statement.Legal, first.legal_plain, forall_legal_plain,
        first.names_plain, s.legal_plain]
  | «return» value => exact and_congr Iff.rfl (forall_legal_plain value)
  | block body => exact legalBody_plain body c.inner

theorem Declaration.legal_plain (d : Declaration) (c : Context) : d.plain.Legal c ↔ d.Legal c := by
  cases d with
  | var name value => exact c.admitsVariable_plain name value
  | function f =>
      simp only [Declaration.plain, Declaration.Legal, f.name_plain, f.legal_plain]
  | statement s => exact s.legal_plain c

theorem Function.legal_plain (f : Function) : f.plain.Legal ↔ f.Legal := by
  have compact := f.compact_plain false
  cases f with
  | mk index name parameters body result =>
      simp only [Function.plain] at compact ⊢
      simp only [Function.Legal, legalBody_plain body, forall_legal_plain, compact]

theorem legalBody_plain (body : List Declaration) (c : Context) :
    LegalBody c (plainOfBody body) ↔ LegalBody c body := by
  cases body with
  | nil => exact Iff.rfl
  | cons d rest =>
      simp only [plainOfBody, LegalBody, d.legal_plain, d.names_plain, legalBody_plain rest]

end

theorem legalScript_plain (body : List Declaration) :
    LegalScript (plainOfBody body) ↔ LegalScript body := by
  have plain : scriptOf (plainOfBody body) = (scriptOf body).plain := by
    rw [Function.plain_eq]
    rfl
  constructor
  · rintro ⟨legal, compact⟩
    rw [plain] at compact
    exact ⟨(legalBody_plain body .script).mp legal, ((scriptOf body).compact_plain true).mp compact⟩
  · rintro ⟨legal, compact⟩
    refine ⟨(legalBody_plain body .script).mpr legal, ?_⟩
    rw [plain]
    exact ((scriptOf body).compact_plain true).mpr compact

/-! Where an `else` belongs -/

@[simp] theorem Statement.isEmpty_plain (s : Statement) : s.plain.isEmpty = s.isEmpty := by
  cases s <;> rfl

theorem Statement.dangles_plain (s : Statement) : s.plain.dangles = s.dangles := by
  cases s with
  | ifElse c s t => simp only [plain, dangles, t.isEmpty_plain, t.dangles_plain]
  | «while» c s => exact s.dangles_plain
  | «for» first c step s => exact s.dangles_plain
  | _ => rfl

mutual

theorem Statement.nearest_plain (s : Statement) : s.plain.Nearest ↔ s.Nearest := by
  cases s with
  | ifElse c s t =>
      simp only [Statement.plain, Statement.Nearest, s.nearest_plain, t.nearest_plain, t.isEmpty_plain,
        s.dangles_plain]
  | «while» c s => exact s.nearest_plain
  | «for» first c step s => exact s.nearest_plain
  | block body => exact nearestAll_plain body
  | _ => exact Iff.rfl

theorem Declaration.nearest_plain (d : Declaration) : d.plain.Nearest ↔ d.Nearest := by
  cases d with
  | function f => exact f.nearest_plain
  | statement s => exact s.nearest_plain
  | var => exact Iff.rfl

theorem Function.nearest_plain (f : Function) : f.plain.Nearest ↔ f.Nearest := by
  obtain ⟨index, name, parameters, body, result⟩ := f
  exact nearestAll_plain body

theorem nearestAll_plain (body : List Declaration) : NearestAll (plainOfBody body) ↔ NearestAll body := by
  cases body with
  | nil => exact Iff.rfl
  | cons d rest => exact and_congr d.nearest_plain (nearestAll_plain rest)

end

end Reckoner.Script
