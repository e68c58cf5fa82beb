import Reckoner.Proofs.Compiler.ExpressionVerdict
import Reckoner.Proofs.Compiler.Statement
import Reckoner.Proofs.Script.Sentences

/-!
Judging clauses and statements without statements inside. Between statements every local is
initialized, so that only the context decides which names may be declared.
-/

namespace Reckoner.Script

def settledOf : List Slot → List Directive
  | [] => []
  | .fixed d :: rest => d :: settledOf rest
  | .exit :: rest => settledOf rest

@[simp] theorem settledOf_append (a b : List Slot) :
    settledOf (a ++ b) = settledOf a ++ settledOf b := by
  induction a with
  | nil => rfl
  | cons slot rest ih =>
      cases slot with
      | fixed d => exact congrArg (d :: ·) ih
      | exit => exact ih

@[simp] theorem settledOf_fixedSlots (code : List Directive) :
    settledOf (fixedSlots code) = code := by
  induction code with
  | nil => rfl
  | cons d rest ih => exact congrArg (d :: ·) ih

end Reckoner.Script

namespace Reckoner.Compiler

open Script

theorem map_name_fresh (names : List String) (depth : Nat) :
    (names.map fun name => (⟨name, some depth⟩ : Local)).map Local.name = names := by
  rw [List.map_map]
  exact List.map_id names

namespace View

def site (v : View) : Option LoopSite :=
  v.loops.head?.map fun loop =>
    ⟨loop.start, (v.locals.dropLast.dropWhile (Local.isDeeper loop.depth)).length⟩

def namesHere (v : View) : List String :=
  if v.depth = 0 then [] else (v.locals.takeWhile (Local.isInScope v.depth)).map Local.name

def context (v : View) : Context where
  inFunction := !v.enclosing.isEmpty
  inLoop := !v.loops.isEmpty
  isGlobal := v.depth == 0
  here := v.namesHere
  scope := v.scope

/-- What holds between any two statements. -/
structure Settled (v : View) : Prop where
  nonempty : v.locals ≠ []
  bounded : ∀ l ∈ v.locals, ∃ d, l.depth = some d ∧ d ≤ v.depth
  behind : ∀ loop ∈ v.loops, loop.start ≤ v.here
  inside : ∀ loop ∈ v.loops, loop.depth ≤ v.depth

def Deep (v : View) : Prop := ∀ loop ∈ v.loops, loop.depth < v.depth

def pass (v : View) (rest : List Token) (count : Nat) (new : List Script.Entry) (slots : List Slot)
    (names : List String) : View :=
  { v with
    tokens := rest
    created := count
    entries := gather v.entries new
    here := v.here + slotsSize slots
    loops := addBreaks v.loops (exitsFrom v.here slots)
    locals := (names.map fun name => ⟨name, some v.depth⟩) ++ v.locals }

theorem pass_congr {v : View} {rest : List Token} {count : Nat} {new other : List Script.Entry}
    {a b : List Slot} {names : List String} (entries : new = other)
    (sizes : slotsSize a = slotsSize b) (exits : exitsFrom v.here a = exitsFrom v.here b) :
    v.pass rest count new a names = v.pass rest count other b names := by
  rw [pass, pass, entries, sizes, exits]

theorem pass_pass (v : View) (ts us : List Token) (m n : Nat) (x y : List Script.Entry)
    (a b : List Slot) (names more : List String) :
    (v.pass ts m x a names).pass us n y b more =
      v.pass us n (x ++ y) (a ++ b) (more ++ names) := by
  simp only [pass, gather_append, slotsSize_append, exitsFrom_append, addBreaks_append,
    List.map_append, List.append_assoc, Nat.add_assoc]

theorem after_eq_pass (v : View) (rest : List Token) (new : List Script.Entry) (code : List Directive) :
    v.after rest new (codeSize code) = v.pass rest v.created new (fixedSlots code) [] := by
  rw [pass, exitsFrom_fixedSlots, addBreaks_nil, slotsSize_fixedSlots]
  rfl

end View

theorem Poised.index_lt {s : Compiler} {v : View} (poised : Poised s v) {r : Routine}
    (member : .routine r ∈ s.pool) : r.identity.index < v.created := by
  refine poised.numbered _ ?_
  have holds : s.pool.toList.map Script.Entry.ofConstant? = v.entries.map some := poised.holds
  have stored := List.mem_map_of_mem (f := Script.Entry.ofConstant?) (Array.mem_toList_iff.mpr member)
  rw [holds] at stored
  obtain ⟨e, known, same⟩ := List.mem_map.mp stored
  rw [← Option.some.inj same]
  exact known

theorem Poised.scoped {s : Compiler} {v : View} (poised : Poised s v) (settled : v.Settled) :
    Scoped s where
  nonempty := by rw [poised.locals]; exact settled.nonempty
  bounded := by rw [poised.locals, poised.depth]; exact settled.bounded
  room := by rw [poised.locals]; exact poised.room
  numbered := by
    intro r member
    rw [poised.created]
    exact poised.index_lt member
  behind := by rw [poised.loops, poised.here]; exact settled.behind
  inside := by rw [poised.loops, poised.depth]; exact settled.inside

theorem Poised.scope_eq {s : Compiler} {v : View} (poised : Poised s v) : s.scope = v.scope := by
  rw [scope, poised.locals]
  rfl

namespace View.Settled

variable {v : View} (settled : v.Settled)

include settled

theorem onward {w : View} (locals : w.locals = v.locals) (depth : w.depth = v.depth)
    (loops : w.loops = v.loops) (here : v.here ≤ w.here) : w.Settled where
  nonempty := by rw [locals]; exact settled.nonempty
  bounded := by rw [locals, depth]; exact settled.bounded
  behind := by
    rw [loops]
    exact fun loop member => Nat.le_trans (settled.behind loop member) here
  inside := by rw [loops, depth]; exact settled.inside

theorem reading (rest : List Token) : View.Settled { v with tokens := rest } :=
  settled.onward rfl rfl rfl (Nat.le_refl _)

theorem after (rest : List Token) (new : List Script.Entry) (size : Nat) :
    (v.after rest new size).Settled :=
  settled.onward rfl rfl rfl (Nat.le_add_right _ _)

theorem pushLoop {start : Nat} (before : start ≤ v.here) :
    View.Settled { v with loops := ⟨start, v.depth, []⟩ :: v.loops } where
  nonempty := settled.nonempty
  bounded := settled.bounded
  behind := List.forall_mem_cons.mpr ⟨before, settled.behind⟩
  inside := List.forall_mem_cons.mpr ⟨Nat.le_refl _, settled.inside⟩

theorem scope_eq : v.scope = v.locals.dropLast.map Local.name := by
  have none : v.locals.dropWhile (fun l => l.depth.isNone) = v.locals := by
    cases localsEq : v.locals with
    | nil => rfl
    | cons l rest =>
        obtain ⟨d, depth, -⟩ := settled.bounded l (by rw [localsEq]; exact List.mem_cons_self)
        rw [List.dropWhile_cons_of_neg (by simp [depth])]
  rw [View.scope, scopeOf, none]

theorem not_hidden (name : String) : ¬ Hidden v.locals name := by
  have initialized : ∀ l ∈ v.locals, l.depth ≠ none := by
    intro l member
    obtain ⟨d, depth, -⟩ := settled.bounded l member
    rw [depth]
    exact nofun
  rintro ⟨slot, found⟩
  generalize v.locals = locals at initialized found
  induction locals with
  | nil => exact absurd found nofun
  | cons l rest ih =>
      cases rest with
      | nil => exact absurd found nofun
      | cons m rest =>
          rw [findSlot_cons] at found
          split at found
          · have none : l.depth.isSome = false := (Prod.mk.inj (Option.some.inj found)).2
            exact initialized l List.mem_cons_self (by simpa using none)
          · exact ih (fun other member => initialized other (List.mem_cons_of_mem l member)) found

theorem accepts_iff (e : Expression) : v.Accepts e ↔
    Fits v.entries e.Legal (e.code #[] v.scope) (e.entries v.scope) :=
  fits_congr (and_iff_left fun name _ => settled.not_hidden name)

theorem pass (rest : List Token) (count : Nat) (new : List Script.Entry) (slots : List Slot)
    (names : List String) : (v.pass rest count new slots names).Settled where
  nonempty := List.append_ne_nil_of_right_ne_nil _ settled.nonempty
  bounded := by
    intro l member
    rcases List.mem_append.mp member with fresh | old
    · obtain ⟨name, -, rfl⟩ := List.mem_map.mp fresh
      exact ⟨v.depth, rfl, Nat.le_refl _⟩
    · exact settled.bounded l old
  behind := by
    intro loop member
    obtain ⟨old, oldMember, start, -⟩ := mem_addBreaks member
    rw [← start]
    exact Nat.le_trans (settled.behind old oldMember) (Nat.le_add_right _ _)
  inside := by
    intro loop member
    obtain ⟨old, oldMember, -, depth⟩ := mem_addBreaks member
    rw [← depth]
    exact settled.inside old oldMember

theorem scope_pass (rest : List Token) (count : Nat) (new : List Script.Entry) (slots : List Slot)
    (names : List String) : (v.pass rest count new slots names).scope = names ++ v.scope := by
  rw [(settled.pass rest count new slots names).scope_eq, settled.scope_eq, View.pass,
    List.dropLast_append_of_ne_nil settled.nonempty, List.map_append, map_name_fresh]

end View.Settled

namespace View

variable {v : View} (rest : List Token) (count : Nat) (new : List Script.Entry) (slots : List Slot)

theorem isEmpty_addBreaks (loops : List Loop) (more : List Nat) :
    (addBreaks loops more).isEmpty = loops.isEmpty := by
  cases loops <;> rfl

theorem Deep.pass (deep : v.Deep) (names : List String) :
    (v.pass rest count new slots names).Deep := by
  intro loop member
  obtain ⟨old, oldMember, -, depth⟩ := mem_addBreaks member
  rw [← depth]
  exact deep old oldMember

theorem Settled.context_pass (settled : v.Settled) {names : List String}
    (outside : v.depth = 0 → names = []) :
    (v.pass rest count new slots names).context = v.context.add names := by
  have depth : (v.pass rest count new slots names).depth = v.depth := rfl
  have fresh : (v.pass rest count new slots names).namesHere = names ++ v.namesHere := by
    rw [namesHere, namesHere, depth]
    by_cases global : v.depth = 0
    · rw [if_pos global, if_pos global, outside global]
      rfl
    · rw [if_neg global, if_neg global, View.pass, List.takeWhile_append_of_pos, List.map_append,
        map_name_fresh]
      intro l member
      obtain ⟨name, -, rfl⟩ := List.mem_map.mp member
      simp [Local.isInScope]
  rw [context, context, fresh, settled.scope_pass]
  simp only [View.pass, isEmpty_addBreaks, Context.add]

theorem Settled.context_pass_nil (settled : v.Settled) :
    (v.pass rest count new slots []).context = v.context :=
  settled.context_pass rest count new slots fun _ => rfl

theorem site_pass (nonempty : v.locals ≠ []) {names : List String}
    (deeper : ∀ loop ∈ v.loops, names = [] ∨ loop.depth < v.depth) :
    (v.pass rest count new slots names).site = v.site := by
  rw [site, site, View.pass]
  simp only []
  cases loopsEq : v.loops with
  | nil => rfl
  | cons loop rest =>
      have all : ∀ l ∈ names.map fun name => (⟨name, some v.depth⟩ : Local),
          Local.isDeeper loop.depth l = true := by
        intro l member
        obtain ⟨name, declared, rfl⟩ := List.mem_map.mp member
        rcases deeper loop (by rw [loopsEq]; exact List.mem_cons_self) with none | deep
        · rw [none] at declared
          exact absurd declared List.not_mem_nil
        · simpa [Local.isDeeper] using deep
      rw [List.dropLast_append_of_ne_nil nonempty]
      simp only [addBreaks, List.head?_cons, Option.map_some]
      rw [List.dropWhile_append_of_pos all]

theorem site_pass_nil (nonempty : v.locals ≠ []) :
    (v.pass rest count new slots []).site = v.site :=
  site_pass rest count new slots nonempty fun _ _ => .inl rfl

theorem Deep.site_pass (deep : v.Deep) (nonempty : v.locals ≠ []) (names : List String) :
    (v.pass rest count new slots names).site = v.site :=
  View.site_pass rest count new slots nonempty fun loop member => .inr (deep loop member)

end View

/-! Expressions in statements -/

section

variable {fuel : Nat} {ts rest : List Token} {kind : Kind}

theorem expressionThen_eq_some {e : Expression}
    (read : Reader.expressionThen fuel kind ts = some (e, rest)) :
    ∃ us, Reader.expression fuel ts = some (e, us) ∧ Reader.expect kind us = some rest := by
  simp only [Reader.expressionThen, Option.bind_eq_bind, Option.bind_eq_some_iff,
    Prod.exists] at read
  obtain ⟨e', us, first, rest', expected, last⟩ := read
  cases last
  exact ⟨us, first, expected⟩

inductive ClauseRead (fuel : Nat) (kind : Kind) (ts : List Token) :
    Option Expression → List Token → Prop where
  | missing {t : Token} {rest : List Token} (ahead : ts = t :: rest) (here : t.kind = kind) :
    ClauseRead fuel kind ts none rest
  | present {e : Expression} {rest : List Token} (other : ¬ (Reader.kindAt ts == kind) = true)
    (read : Reader.expressionThen fuel kind ts = some (e, rest)) :
    ClauseRead fuel kind ts (some e) rest

theorem clauseRead {value : Option Expression} (more : kind ≠ .eof)
    (read : Reader.clause fuel kind ts = some (value, rest)) :
    ClauseRead fuel kind ts value rest := by
  rw [Reader.clause] at read
  split at read
  · rename_i here
    obtain ⟨t, us, ahead, matched⟩ := tokens_of_kind here more
    cases read
    exact .missing (by rw [ahead]; rfl) matched
  · rename_i other
    simp only [Option.bind_eq_bind, Option.bind_eq_some_iff, Prod.exists] at read
    obtain ⟨e, us, present, last⟩ := read
    cases last
    exact .present other present

end

namespace Poised

variable {s : Compiler} {v : View} {fuel : Nat} {rest : List Token} (poised : Poised s v)

include poised

theorem check_eq (kind : Kind) : s.check kind = (Reader.kindAt v.tokens == kind) := by
  rw [check, poised.kindAt]

theorem expressionThen {e : Expression} {kind : Kind} (c : Complaint) (notEnd : kind ≠ .eof)
    (read : Reader.expressionThen fuel kind v.tokens = some (e, rest)) :
    Verdict ((expression fuel s).consume kind c) (v.Accepts e) (v.overOne rest e) := by
  obtain ⟨us, first, expected⟩ := expressionThen_eq_some read
  exact ((expressionVerdicts fuel).expression poised first).step (reports_consume _ _ _)
    fun behind => (behind.consume c notEnd expected).1

theorem valueStatement {e : Expression} (c : Complaint) (op : Operation)
    (plain : op.operand = .none)
    (read : Reader.expressionThen fuel .semicolon v.tokens = some (e, rest)) :
    Verdict (((expression fuel s).consume .semicolon c).emitOp op) (v.Accepts e)
      (v.pass rest v.created (e.entries v.scope) (fixedSlots (e.code #[] v.scope ++ [⟨op, 0⟩]))
        []) := by
  have size : codeSize (e.code #[] v.scope ++ [⟨op, 0⟩]) = codeSize (e.code #[] v.scope) + 1 := by
    rw [codeSize_append, codeSize, Directive.size, plain]
    rfl
  rw [← View.after_eq_pass, size]
  exact (poised.expressionThen c (by decide) read).step ((Reports.refl _).emitOp op)
    fun behind => behind.emitOp op

end Poised

/-! Variables -/

theorem hidden_cons {name other : String} {l : Local} {rest : List Local} :
    Hidden (⟨name, none⟩ :: l :: rest) other ↔ name = other ∨ Hidden (l :: rest) other := by
  rw [Hidden, findSlot_cons]
  by_cases same : name = other
  · rw [if_pos (by simpa using same)]
    exact iff_of_true ⟨_, rfl⟩ (.inl same)
  · rw [if_neg (by simpa using same)]
    exact (or_iff_right same).symm

theorem View.Settled.readable_declared {v : View} (settled : v.Settled) (name : String)
    (names : List String) : Readable (declared v.depth name none ++ v.locals) names ↔
      ((v.depth == 0) = false → name ∉ names) := by
  rw [declared]
  by_cases outside : v.depth = 0
  · rw [if_pos outside]
    refine iff_of_true (fun other _ => settled.not_hidden other) fun inside => ?_
    rw [outside] at inside
    exact absurd inside (by decide)
  · rw [if_neg outside]
    have nonempty := settled.nonempty
    have none := settled.not_hidden
    cases localsEq : v.locals with
    | nil => exact absurd localsEq nonempty
    | cons l rest =>
        rw [localsEq] at none
        constructor
        · exact fun readable _ member => readable name member (hidden_cons.mpr (.inl rfl))
        · intro fresh other member hidden
          rcases hidden_cons.mp hidden with same | old
          · exact fresh (beq_false_of_ne outside) (same ▸ member)
          · exact none other old

@[simp] theorem previous_fault (s : Compiler) (c : Complaint) :
    (s.fault c).previous = s.previous := by
  rw [fault, report]
  split <;> rfl

@[simp] theorem previous_constant (s : Compiler) (c : Constant) :
    (s.constant c).1.previous = s.previous := by
  simp only [constant]
  split
  · exact previous_fault _ _
  · rfl

@[simp] theorem previous_addLocal (s : Compiler) (name : String) :
    (s.addLocal name).previous = s.previous := by
  rw [addLocal]
  split
  · exact previous_fault s _
  · rfl

@[simp] theorem previous_declareVariable (s : Compiler) :
    s.declareVariable.previous = s.previous := by
  rw [declareVariable]
  split
  · rfl
  · simp only [previous_addLocal]
    split
    · exact previous_fault s _
    · rfl

theorem View.any_namesHere {v : View} (inside : v.depth ≠ 0) (name : String) :
    (v.locals.takeWhile (Local.isInScope v.depth)).any (fun l => l.name == name) = true ↔
      name ∈ v.context.here := by
  have here : v.context.here = (v.locals.takeWhile (Local.isInScope v.depth)).map Local.name :=
    if_neg inside
  rw [here, List.any_eq_true, List.mem_map]
  constructor
  · rintro ⟨l, member, same⟩
    exact ⟨l, member, eq_of_beq same⟩
  · rintro ⟨l, member, same⟩
    exact ⟨l, member, beq_iff_eq.mpr same⟩

section

variable {s : Compiler} {v : View} (poised : Poised s v) (settled : v.Settled)

include poised settled

theorem Poised.scope_length : v.scope.length + 1 = v.locals.length := by
  have length := (poised.scoped settled).scope_length
  rwa [poised.scope_eq, poised.locals] at length

theorem Poised.declareVariable {name : String} (named : s.previous.lexeme = name) :
    Verdict s.declareVariable (v.context.Admits name)
      { v with locals := declared v.depth name none ++ v.locals } := by
  rw [Compiler.declareVariable, poised.depth]
  by_cases outside : v.depth = 0
  · rw [if_pos outside, declared, if_pos outside]
    have global : v.context.isGlobal = true := beq_iff_eq.mpr outside
    refine (Verdict.of_poised poised).congr (iff_of_true trivial fun inside => ?_)
    rw [global] at inside
    exact absurd inside (by decide)
  · have inside : v.context.isGlobal = false := beq_false_of_ne outside
    rw [if_neg outside, declared, if_neg outside, named, poised.locals]
    simp only []
    rw [Context.Admits, forall_prop_of_true inside, ← View.any_namesHere outside]
    have length : v.context.scope.length + 1 = v.locals.length := poised.scope_length settled
    rw [length]
    by_cases taken : (v.locals.takeWhile (Local.isInScope v.depth)).any
        (fun l => l.name == name) = true
    · rw [if_pos taken]
      have faulted := fault_diagnostics_ne poised.audible (.redeclared)
      have grown := reports_addLocal (s.fault .redeclared) name
      exact {
        clean_iff := iff_of_false (fun done => faulted (grown.clean done)) fun both => both.1 taken
        poised := fun done => absurd (grown.clean done) faulted }
    · rw [if_neg taken, addLocal, poised.locals]
      have room := poised.room
      by_cases full : v.locals.length = maxLocals
      · rw [if_pos full]
        have none : ¬v.locals.length < 256 := by
          rw [full]
          exact Nat.lt_irrefl maxLocals
        exact (Verdict.of_fault poised.audible _ _).congr
          (iff_of_false not_false fun both => none both.2)
      · rw [if_neg full]
        have some : v.locals.length < 256 := Nat.lt_of_le_of_ne room full
        exact {
          clean_iff := iff_of_true poised.clean ⟨taken, some⟩
          poised := fun _ => { poised with
            stream := poised.stream
            holds := poised.holds
            locals := rfl
            room := by
              rw [List.singleton_append, List.length_cons]
              exact some } }

theorem Poised.parseVariable {name : String} {rest : List Token} (c : Complaint)
    (read : Reader.identifier v.tokens = some (name, rest)) :
    Verdict (s.parseVariable c).1
        (Fits v.entries (v.context.Admits name) [] (declaredEntries (v.depth == 0) name))
        { v with
          tokens := rest
          locals := declared v.depth name none ++ v.locals
          entries := gather v.entries (declaredEntries (v.depth == 0) name) } ∧
      (s.parseVariable c).1.previous.lexeme = name := by
  obtain ⟨t, ahead, kind, named⟩ := Grammar.identifier_eq read
  obtain ⟨passed, -, previous⟩ := poised.consume c (by decide : Kind.identifier ≠ .eof)
    (by rw [ahead, Reader.expect, if_pos kind])
  rw [(poised.current ahead).1] at previous
  rw [Compiler.parseVariable]
  generalize s.consume .identifier c = u at passed previous
  have lexeme : u.previous.lexeme = name := by rw [previous, named]
  have judged := Poised.declareVariable passed (settled.reading _) lexeme
  have same : u.declareVariable.previous.lexeme = name := by rw [previous_declareVariable, lexeme]
  generalize u.declareVariable = w at judged same
  refine ⟨(judged.and_then (q := (gather v.entries (declaredEntries (v.depth == 0) name)).length ≤
    maxConstants) ?_ fun _ behind => ?_).congr ?_, ?_⟩
  · split
    · exact .refl w
    · exact reports_constant w _
  · have depth : w.draft.depth = v.depth := behind.depth
    rw [depth]
    by_cases inside : 0 < v.depth
    · rw [if_pos inside, declaredEntries, if_neg (by simpa using Nat.ne_of_gt inside)]
      exact (Verdict.of_poised behind).congr (iff_of_true trivial behind.few)
    · have outside : (v.depth == 0) = true := beq_iff_eq.mpr (by omega)
      rw [if_neg inside, declaredEntries, if_pos outside, same]
      exact behind.constant (c := .text name) rfl (by simp)
  · exact ⟨fun both => ⟨both.1, List.forall_mem_nil _, both.2⟩, fun fits => ⟨fits.legal, fits.few⟩⟩
  · split
    · exact same
    · rw [previous_constant, same]

end

theorem Poised.markInitialized {s : Compiler} {v : View} (poised : Poised s v) {name : String}
    {locals : List Local} {state : Option Nat}
    (shape : v.locals = declared v.depth name state ++ locals) :
    Poised s.markInitialized
      { v with locals := declared v.depth name (some v.depth) ++ locals } := by
  rw [Compiler.markInitialized, poised.depth]
  by_cases outside : v.depth = 0
  · rw [declared, if_pos outside] at shape ⊢
    rw [if_pos outside]
    have same : { v with locals := [] ++ locals } = v := by rw [← shape]
    rw [same]
    exact poised
  · rw [declared, if_neg outside] at shape ⊢
    rw [if_neg outside, poised.locals, shape]
    exact { poised with
      stream := poised.stream
      holds := poised.holds
      locals := rfl
      room := by
        have room := poised.room
        rw [shape] at room
        exact room }

theorem codeSize_defineCode (isGlobal : Bool) (name : String) :
    codeSize (defineCode #[] isGlobal name) = if isGlobal then 2 else 0 := by
  cases isGlobal <;> rfl

theorem Poised.defineVariable {s : Compiler} {v : View} (poised : Poised s v) {name : String}
    {locals : List Local} {state : Option Nat}
    (shape : v.locals = declared v.depth name state ++ locals) (byte : UInt8) :
    Poised (s.defineVariable byte) { v with
      locals := declared v.depth name (some v.depth) ++ locals
      here := v.here + codeSize (defineCode #[] (v.depth == 0) name) } := by
  rw [Compiler.defineVariable, poised.depth, codeSize_defineCode]
  by_cases inside : 0 < v.depth
  · rw [if_pos inside, if_neg (by simpa using Nat.ne_of_gt inside)]
    exact poised.markInitialized shape
  · have outside : v.depth = 0 := by omega
    rw [if_neg inside, if_pos (beq_iff_eq.mpr outside)]
    have written := poised.emitWith .defineGlobal byte
    rw [declared, if_pos outside] at shape ⊢
    have same : { v with locals := [] ++ locals, here := v.here + 2 } =
      { v with here := v.here + 2 } := by rw [← shape]
    rw [same]
    exact written

theorem declared_eq (depth : Nat) (name : String) : declared depth name (some depth) =
    (if (depth == 0) = true then [] else [name]).map fun name => (⟨name, some depth⟩ : Local) := by
  rw [declared]
  by_cases outside : depth = 0
  · rw [if_pos outside, if_pos (beq_iff_eq.mpr outside)]
    rfl
  · rw [if_neg outside, if_neg (by simpa using outside)]
    rfl

inductive VariableRead (fuel : Nat) (ts : List Token) :
    String → Option Expression → List Token → Prop where
  | plain {name : String} {us rest : List Token} (named : Reader.identifier ts = some (name, us))
    (other : ¬ (Reader.kindAt us == .equal) = true)
    (closing : Reader.expect .semicolon us = some rest) : VariableRead fuel ts name none rest
  | initialized {name : String} {t : Token} {us rest : List Token} {e : Expression}
    (named : Reader.identifier ts = some (name, t :: us)) (equal : t.kind = .equal)
    (value : Reader.expressionThen fuel .semicolon us = some (e, rest)) :
    VariableRead fuel ts name (some e) rest

theorem variableRead {fuel : Nat} {ts rest : List Token} {name : String}
    {value : Option Expression}
    (read : Reader.variableRest fuel ts = some (name, value, rest)) :
    VariableRead fuel ts name value rest := by
  simp only [Reader.variableRest, Option.bind_eq_bind, Option.bind_eq_some_iff,
    Prod.exists] at read
  obtain ⟨name', us, named, others⟩ := read
  split at others
  · rename_i equal
    obtain ⟨t, ws, rfl, kind⟩ := tokens_of_kind equal (by decide)
    simp only [Option.bind_eq_some_iff, Prod.exists] at others
    obtain ⟨e, rest', present, last⟩ := others
    cases last
    exact .initialized named kind present
  · rename_i other
    simp only [Option.bind_eq_some_iff] at others
    obtain ⟨rest', closing, last⟩ := others
    cases last
    exact .plain named other closing

theorem short_defineCode (isGlobal : Bool) (name : String) :
    ∀ d ∈ defineCode #[] isGlobal name, d.Short := by
  rw [defineCode]
  split
  · exact short_singleton (short_of_operand (by decide))
  · exact List.forall_mem_nil _

/-- A declaration is accepted if its name can be declared and its value is accepted while the name
cannot be read. -/
theorem fits_variable {v : View} (settled : v.Settled) {name : String} {value : Option Expression}
    {w : View} (locals : w.locals = declared v.depth name none ++ v.locals)
    (entries : w.entries = gather v.entries (declaredEntries (v.depth == 0) name)) :
    Fits v.entries (v.context.AdmitsVariable name value)
        (codeOfOptional #[] v.scope value ++ defineCode #[] (v.depth == 0) name)
        (declaredEntries (v.depth == 0) name ++ entriesOfOptional v.scope value) ↔
      Fits v.entries (v.context.Admits name) [] (declaredEntries (v.depth == 0) name) ∧
        ∀ e ∈ value, w.Accepts e := by
  rw [fits_short (short_defineCode _ _)]
  refine (@fits_append v.entries _ _ _ _ [] _).trans (and_congr_right fun first => ?_)
  have scopes : w.scope = v.scope := by
    rw [View.scope, locals]
    exact scopeOf_declared v.depth name v.locals
  cases value with
  | none =>
      exact iff_of_true ⟨by simp, short_singleton (short_of_operand (by decide)), first.few⟩ (by simp)
  | some e =>
      have one : (∀ x ∈ some e, w.Accepts x) ↔ w.Accepts e := by simp
      rw [one, View.Accepts, scopes, entries, locals, settled.readable_declared]
      refine fits_congr ?_
      have inside : v.context.isGlobal = (v.depth == 0) := rfl
      rw [inside]
      simp

theorem Verdict.variable {u : Compiler} {v : View} {p : Prop} {name : String}
    {ts rest : List Token} {byte : UInt8} (value : Option Expression)
    (judged : Verdict u p { v with
      tokens := ts
      locals := declared v.depth name none ++ v.locals
      entries := gather (gather v.entries (declaredEntries (v.depth == 0) name))
        (entriesOfOptional v.scope value)
      here := v.here + codeSize (codeOfOptional #[] v.scope value) })
    (closing : Reader.expect .semicolon ts = some rest) :
    Verdict ((u.consume .semicolon .expectSemicolonAfterVariable).defineVariable byte) p
      (v.pass rest v.created
        (declaredEntries (v.depth == 0) name ++ entriesOfOptional v.scope value)
        (fixedSlots (codeOfOptional #[] v.scope value ++ defineCode #[] (v.depth == 0) name))
        (if (v.depth == 0) = true then [] else [name])) := by
  have whole := (judged.step (reports_consume _ .semicolon .expectSemicolonAfterVariable)
    fun behind => (behind.consume _ (by decide) closing).1).step (reports_defineVariable _ byte)
      fun behind => behind.defineVariable
        (show _ = declared v.depth name none ++ v.locals from rfl) byte
  refine whole.congr_view ?_
  rw [View.pass, exitsFrom_fixedSlots, addBreaks_nil, slotsSize_fixedSlots, codeSize_append,
    ← declared_eq, Nat.add_assoc, gather_append]

theorem Poised.varDeclaration {s : Compiler} {v : View} (poised : Poised s v)
    (settled : v.Settled) {fuel : Nat} {name : String} {value : Option Expression}
    {rest : List Token} (read : Reader.variableRest fuel v.tokens = some (name, value, rest)) :
    Verdict (varDeclaration fuel s)
      (Fits v.entries (v.context.AdmitsVariable name value)
        (codeOfOptional #[] v.scope value ++ defineCode #[] (v.depth == 0) name)
        (declaredEntries (v.depth == 0) name ++ entriesOfOptional v.scope value))
      (v.pass rest v.created
        (declaredEntries (v.depth == 0) name ++ entriesOfOptional v.scope value)
        (fixedSlots (codeOfOptional #[] v.scope value ++ defineCode #[] (v.depth == 0) name))
        (if (v.depth == 0) = true then [] else [name])) := by
  have grown : ∀ w : Compiler, Reports w
      (if w.check .equal then expression fuel w.advance else w.emitOp .false) := by
    intro w
    split
    · exact (reports_advance w).trans (reports_expression _ _)
    · exact (Reports.refl w).emitOp .false
  rw [Compiler.varDeclaration]
  cases variableRead read with
  | plain named other closing =>
      obtain ⟨parsed, -⟩ := poised.parseVariable settled .expectVariableName named
      generalize s.parseVariable .expectVariableName = found at parsed
      obtain ⟨w, byte⟩ := found
      have judged := parsed.step (grown w) fun behind => by
        have isOther : ¬ w.check .equal = true := by
          rw [behind.check_eq]
          exact other
        rw [if_neg isOther]
        exact behind.emitOp .false
      refine Verdict.variable none (judged.congr ?_) closing
      refine Iff.trans (iff_of_eq (and_true _)).symm (Iff.trans ?_ (fits_variable settled
        (w := { v with
          locals := declared v.depth name none ++ v.locals
          entries := gather v.entries (declaredEntries (v.depth == 0) name) }) rfl rfl).symm)
      exact and_congr Iff.rfl (iff_of_true trivial (by simp))
  | initialized named equal present =>
      rename_i t us e
      obtain ⟨ws, first, closing⟩ := expressionThen_eq_some present
      obtain ⟨parsed, -⟩ := poised.parseVariable settled .expectVariableName named
      generalize s.parseVariable .expectVariableName = found at parsed
      obtain ⟨w, byte⟩ := found
      have judged := parsed.and_then (grown w) fun _ behind => by
        have isEqual : w.check .equal = true := by
          rw [behind.check_eq]
          exact beq_iff_eq.mpr equal
        rw [if_pos isEqual]
        exact (expressionVerdicts fuel).expression
          (behind.advance rfl (by rw [equal]; decide)).1 first
      refine Verdict.variable (some e) ((judged.congr ?_).congr_view ?_) closing
      · refine Iff.trans ?_ (fits_variable settled
          (w := { v with
            tokens := us
            locals := declared v.depth name none ++ v.locals
            entries := gather v.entries (declaredEntries (v.depth == 0) name) }) rfl rfl).symm
        exact and_congr Iff.rfl (by simp)
      · have scopes : ∀ u : View, u.locals = declared v.depth name none ++ v.locals →
            u.scope = v.scope := by
          intro u locals
          rw [View.scope, locals]
          exact scopeOf_declared v.depth name v.locals
        rw [View.overOne, scopes _ rfl]
        rfl

/-! Ways out of a loop and out of a function -/

theorem short_popCode (n : Nat) : ∀ d ∈ popCode n, d.Short := by
  match n with
  | 0 => exact nofun
  | 1 => exact short_singleton (short_of_operand (by decide))
  | n + 2 => exact short_singleton (short_of_operand (by decide))

namespace Poised

variable {s : Compiler} {v : View} {fuel : Nat} {rest : List Token} (poised : Poised s v)

include poised

theorem emitPops (n : Nat) :
    Poised (s.emitPops n) { v with here := v.here + codeSize (popCode n) } := by
  match n with
  | 0 => exact poised
  | 1 => exact poised.emitOp .pop
  | n + 2 => exact poised.emitWith .popN (n + 2).toUInt8

theorem discardLoopLocals (settled : v.Settled) (loop : Loop) :
    Poised (s.discardLoopLocals loop) { v with here := v.here + codeSize (popCode (v.scope.length -
      (v.locals.dropLast.dropWhile (Local.isDeeper loop.depth)).length)) } := by
  have count := (poised.scoped settled).discarded loop.depth
  rw [poised.scope_eq, poised.locals] at count
  rw [Compiler.discardLoopLocals, poised.locals, ← count]
  exact poised.emitPops _

theorem breakStatement (settled : v.Settled)
    (closing : Reader.expect .semicolon v.tokens = some rest) :
    Verdict s.breakStatement (v.context.inLoop = true)
      (v.pass rest v.created [] (Statement.break.code #[] 0 v.scope v.site v.here) []) := by
  have grown := reports_consume s .semicolon .expectSemicolonAfterBreak
  rw [Compiler.breakStatement, poised.loops]
  cases loopsEq : v.loops with
  | nil =>
      have outside : ¬ v.context.inLoop = true := by simp [View.context, loopsEq]
      have faulted := fault_diagnostics_ne poised.audible .breakOutsideLoop
      have reports := reports_consume (s.fault .breakOutsideLoop) .semicolon
        .expectSemicolonAfterBreak
      exact {
        clean_iff := iff_of_false (fun done => faulted (reports.clean done)) outside
        poised := fun done => absurd (reports.clean done) faulted }
  | cons loop outer =>
      have inside : v.context.inLoop = true := by simp [View.context, loopsEq]
      obtain ⟨passed, -⟩ := poised.consume .expectSemicolonAfterBreak (by decide) closing
      have dropped := Poised.discardLoopLocals passed
        (settled.reading _) loop
      simp only []
      generalize (s.consume .semicolon .expectSemicolonAfterBreak).discardLoopLocals loop = t
        at dropped
      have jumped := dropped.emitJump .jump
      refine (Verdict.of_poised (v := v.pass rest v.created [] _ []) ?_).congr
        (iff_of_true trivial inside)
      have site : v.site = some ⟨loop.start,
          (v.locals.dropLast.dropWhile (Local.isDeeper loop.depth)).length⟩ := by
        rw [View.site, loopsEq]
        rfl
      rw [site]
      have noted : (t.emitJump .jump).draft.loops = loop :: outer := jumped.loops.trans loopsEq
      rw [addBreak, noted]
      exact { jumped with
        stream := jumped.stream
        holds := jumped.holds
        here := by
          refine jumped.here.trans ?_
          simp only [View.pass, Statement.code, slotsSize_append, slotsSize_fixedSlots]
          rfl
        loops := by
          simp only [View.pass, Statement.code, exitsFrom_append, exitsFrom_fixedSlots,
            slotsSize_fixedSlots, loopsEq, addBreaks, dropped.here]
          rfl }

theorem continueStatement (settled : v.Settled)
    (closing : Reader.expect .semicolon v.tokens = some rest) :
    Verdict s.continueStatement
      (v.context.inLoop = true ∧
        ∀ d ∈ settledOf (Statement.continue.code #[] 0 v.scope v.site v.here), d.Short)
      (v.pass rest v.created [] (Statement.continue.code #[] 0 v.scope v.site v.here) []) := by
  rw [Compiler.continueStatement, poised.loops]
  cases loopsEq : v.loops with
  | nil =>
      have outside : ¬ v.context.inLoop = true := by simp [View.context, loopsEq]
      have faulted := fault_diagnostics_ne poised.audible .continueOutsideLoop
      have reports := reports_consume (s.fault .continueOutsideLoop) .semicolon
        .expectSemicolonAfterContinue
      exact {
        clean_iff := iff_of_false (fun done => faulted (reports.clean done)) fun both =>
          outside both.1
        poised := fun done => absurd (reports.clean done) faulted }
  | cons loop outer =>
      have inside : v.context.inLoop = true := by simp [View.context, loopsEq]
      obtain ⟨passed, -⟩ := poised.consume .expectSemicolonAfterContinue (by decide) closing
      have dropped := Poised.discardLoopLocals passed
        (settled.reading _) loop
      simp only []
      generalize (s.consume .semicolon .expectSemicolonAfterContinue).discardLoopLocals loop = t
        at dropped
      have behind := settled.behind loop (by rw [loopsEq]; exact List.mem_cons_self)
      have looped := dropped.emitLoop (Nat.le_trans behind (Nat.le_add_right _ _))
      have site : v.site = some ⟨loop.start,
          (v.locals.dropLast.dropWhile (Local.isDeeper loop.depth)).length⟩ := by
        rw [View.site, loopsEq]
        rfl
      rw [and_iff_right inside, site]
      simp only [Statement.code, settledOf_fixedSlots]
      refine (looped.congr ?_).congr_view ?_
      · constructor
        · intro short d member
          rcases List.mem_append.mp member with pops | back
          · exact short_popCode _ d pops
          · rw [List.mem_singleton.mp back]
            exact fun _ => short
        · intro short
          exact short _ (List.mem_append_right _ List.mem_cons_self) (.inr rfl)
      · rw [View.pass, exitsFrom_fixedSlots, addBreaks_nil, slotsSize_fixedSlots, codeSize_append,
          ← Nat.add_assoc]
        rfl

theorem returnStatement (settled : v.Settled) {value : Option Expression}
    (read : Reader.clause fuel .semicolon v.tokens = some (value, rest)) :
    Verdict (returnStatement fuel s)
      (Fits v.entries (v.context.inFunction = true ∧ ∀ e ∈ value, e.Legal)
        (codeOfOptional #[] v.scope value ++ [{ op := .return }])
        (entriesOfOptional v.scope value))
      (v.pass rest v.created (entriesOfOptional v.scope value)
        (fixedSlots (codeOfOptional #[] v.scope value ++ [{ op := .return }])) []) := by
  have inFunction : v.context.inFunction = !s.enclosing.isEmpty := by
    rw [poised.enclosing]
    rfl
  rw [fits_short (short_singleton (short_of_operand (by decide))), inFunction]
  rw [Compiler.returnStatement]
  cases outside : s.enclosing.isEmpty with
  | true =>
      rw [if_pos rfl]
      have faulted := fault_diagnostics_ne poised.audible .returnOutsideFunction
      have grown : Reports (s.fault .returnOutsideFunction) (if
          (s.fault .returnOutsideFunction).check .semicolon = true then
            (s.fault .returnOutsideFunction).advance.emitFalseReturn
          else ((expression fuel (s.fault .returnOutsideFunction)).consume .semicolon
            .expectSemicolonAfterReturn).emitOp .return) := by
        split
        · exact ((reports_advance _).emitOp .false).emitOp .return
        · exact ((reports_expression _ _).trans (reports_consume _ _ _)).emitOp .return
      exact {
        clean_iff := iff_of_false (fun done => faulted (grown.clean done)) fun fits =>
          absurd fits.legal.1 (by decide)
        poised := fun done => absurd (grown.clean done) faulted }
  | false =>
      simp only [Bool.false_eq_true, if_false, Bool.not_false, true_and]
      cases clauseRead (by decide) read with
      | @missing t rest ahead here =>
          have bare : s.check .semicolon = true := by
            rw [poised.check_eq, ahead]
            exact beq_iff_eq.mpr here
          rw [if_pos bare]
          have passed := (poised.advance ahead (by rw [here]; decide)).1
          have whole := (passed.emitOp .false).emitOp .return
          refine ((Verdict.of_poised whole).congr ?_).congr_view ?_
          · exact iff_of_true trivial
              ⟨by simp, short_singleton (short_of_operand (by decide)), poised.few⟩
          · rw [View.pass, exitsFrom_fixedSlots, addBreaks_nil]
            rfl
      | @present e rest other first =>
          have full : ¬ s.check .semicolon = true := by
            rw [poised.check_eq]
            exact other
          rw [if_neg full]
          refine (poised.valueStatement _ .return rfl first).congr ?_
          rw [settled.accepts_iff]
          exact fits_congr (by simp)

end Poised

end Reckoner.Compiler
