import Reckoner.Proofs.Compiler.RoutineVerdict

/-!
Judging statements. A statement that can be read is accepted if and only if it is legal where it
stands and its code and its constants fit behind those of the statements before it.
-/

namespace Reckoner.Compiler

open Script

namespace View

variable (v : View)

def AcceptsStatement (s : Statement) : Prop :=
  Fits v.entries (s.Legal v.context) (settledOf (s.code #[] 0 v.scope v.site v.here))
    (s.entries v.scope)

def overStatement (rest : List Token) (count : Nat) (s : Statement) : View :=
  v.pass rest count (s.entries v.scope) (s.code #[] 0 v.scope v.site v.here) []

def AcceptsDeclaration (d : Declaration) : Prop :=
  Fits v.entries (d.Legal v.context)
    (settledOf (d.code #[] 0 (v.depth == 0) v.scope v.site v.here))
    (d.entries (v.depth == 0) v.scope)

def overDeclaration (rest : List Token) (count : Nat) (d : Declaration) : View :=
  v.pass rest count (d.entries (v.depth == 0) v.scope)
    (d.code #[] 0 (v.depth == 0) v.scope v.site v.here) (d.names (v.depth == 0))

def AcceptsBody (body : List Declaration) : Prop :=
  Fits v.entries (LegalBody v.context body)
    (settledOf (codeOfBody #[] 0 (v.depth == 0) v.scope v.site v.here body))
    (entriesOfBody (v.depth == 0) v.scope body)

def overBody (rest : List Token) (count : Nat) (body : List Declaration) : View :=
  v.pass rest count (entriesOfBody (v.depth == 0) v.scope body)
    (codeOfBody #[] 0 (v.depth == 0) v.scope v.site v.here body) (namesOf (v.depth == 0) body)

end View

/-! Bodies -/

section

variable {v : View} (settled : v.Settled) (deep : v.Deep) (rest us : List Token) (m n : Nat)
  (d : Declaration) (body : List Declaration)

theorem names_global : d.names true = [] := by
  cases d <;> rfl

theorem names_outside (outside : v.depth = 0) : d.names (v.depth == 0) = [] := by
  rw [outside]
  exact names_global d

include settled

theorem settled_declaration : (v.overDeclaration us m d).Settled := settled.pass ..

theorem scope_declaration :
    (v.overDeclaration us m d).scope = d.names (v.depth == 0) ++ v.scope := settled.scope_pass ..

theorem context_declaration :
    (v.overDeclaration us m d).context = v.context.add (d.names (v.depth == 0)) :=
  settled.context_pass _ _ _ _ (names_outside d)

theorem site_declaration (deep : v.Deep) : (v.overDeclaration us m d).site = v.site :=
  deep.site_pass _ _ _ _ settled.nonempty _

theorem acceptsBody_cons (deep : v.Deep) : v.AcceptsBody (d :: body) ↔
    v.AcceptsDeclaration d ∧ (v.overDeclaration us m d).AcceptsBody body := by
  rw [View.AcceptsBody, View.AcceptsBody, View.AcceptsDeclaration,
    context_declaration settled us m d, scope_declaration settled us m d,
    site_declaration settled us m d deep]
  rw [codeOfBody, settledOf_append, entriesOfBody]
  exact fits_append

theorem overBody_cons (deep : v.Deep) : v.overBody rest n (d :: body) =
    (v.overDeclaration us m d).overBody rest n body := by
  rw [View.overBody, View.overBody, scope_declaration settled us m d,
    site_declaration settled us m d deep]
  rw [codeOfBody, entriesOfBody, namesOf]
  exact (View.pass_pass v us rest m n _ _ _ _ _ _).symm

end

theorem overBody_nil (v : View) (rest : List Token) :
    v.overBody rest v.created [] = { v with tokens := rest } := by
  rw [View.overBody, codeOfBody, entriesOfBody, namesOf, View.pass, exitsFrom, addBreaks_nil]
  rfl

theorem acceptsBody_nil {v : View} (few : v.entries.length ≤ maxConstants) : v.AcceptsBody [] := by
  rw [View.AcceptsBody, codeOfBody, entriesOfBody]
  exact ⟨trivial, List.forall_mem_nil _, few⟩

/-! Loops -/

theorem fits_resolveFrom {entries new : List Script.Entry} {p : Prop} {target here : Nat}
    {slots : List Slot} : Fits entries p (resolveFrom target here slots) new ↔
      Fits entries p (settledOf slots) new ∧
        ∀ q ∈ exitsFrom here slots, target - q - 2 ≤ maxJump := by
  constructor
  · intro fits
    obtain ⟨short, exits⟩ := short_resolveFrom.mp fits.short
    exact ⟨⟨fits.legal, short, fits.few⟩, exits⟩
  · rintro ⟨fits, exits⟩
    exact ⟨fits.legal, short_resolveFrom.mpr ⟨fits.short, exits⟩, fits.few⟩

theorem fits_testCode {entries new : List Script.Entry} {p : Prop} {scope : List String} {distance : Nat}
    {test : Option Expression} : Fits entries p (testCode #[] scope distance test) new ↔
      Fits entries p (testCode #[] scope 0 test) new ∧ ∀ _e ∈ test, distance ≤ maxJump := by
  cases test with
  | none => exact (and_iff_left nofun).symm
  | some e =>
      rw [testCode, testCode, fits_behind, fits_behind, short_jump_pop rfl, short_jump_pop rfl,
        and_assoc]
      exact and_congr Iff.rfl (by simp)

theorem codeSize_loopCode (pool : Pool) (scope : List String) (start : Nat)
    (test step : Option Expression) (body : LoopSite → Nat → List Slot) :
    codeSize (loopCode pool scope start test step body) =
      codeSize (testCode pool scope 0 test) +
        codeSize (stepCode pool scope (start + codeSize (testCode pool scope 0 test)) start step) +
        slotsSize (body ⟨stepStart (start + codeSize (testCode pool scope 0 test)) start step,
          scope.length⟩ (start + codeSize (testCode pool scope 0 test) + codeSize (stepCode pool scope
            (start + codeSize (testCode pool scope 0 test)) start step))) + 3 +
        codeSize (closingCode test) := by
  rw [loopCode]
  simp only [codeSize_append, codeSize_resolveFrom, codeSize, codeSize_testCode pool scope _ 0]
  rw [loopBack, Directive.size]
  simp only [Operation.operand, Operand.width]
  omega

/-- A loop fits if its test, its last clause and its body fit one after the other and no jump
between them is too long. -/
theorem fits_loopCode {entries a b c : List Script.Entry} {p q r : Prop} {scope : List String} {start : Nat}
    {test step : Option Expression} {body : LoopSite → Nat → List Slot} {clause inner : Nat}
    {increment : List Directive} {slots : List Slot}
    (clauseEq : clause = start + codeSize (testCode #[] scope 0 test))
    (incrementEq : increment = stepCode #[] scope clause start step)
    (innerEq : inner = clause + codeSize increment)
    (slotsEq : slots = body ⟨stepStart clause start step, scope.length⟩ inner) :
    Fits entries (p ∧ q ∧ r) (loopCode #[] scope start test step body) (a ++ (b ++ c)) ↔
      Fits entries p (testCode #[] scope 0 test) a ∧ Fits (gather entries a) q increment b ∧
        Fits (gather (gather entries a) b) r (resolveFrom
          (inner + slotsSize slots + 3 + codeSize (closingCode test)) inner slots) c ∧
        inner + slotsSize slots + 3 - stepStart clause start step ≤ maxJump ∧
        ∀ _e ∈ test, codeSize increment + slotsSize slots + 4 ≤ maxJump := by
  have short : ∀ d ∈ closingCode test, d.Short := by
    cases test with
    | none => exact nofun
    | some e => exact short_singleton (short_of_operand (by decide))
  subst clauseEq incrementEq innerEq slotsEq
  rw [loopCode]
  rw [List.append_assoc, List.append_assoc, fits_append, ← List.append_assoc, fits_behind,
    fits_append, List.forall_mem_cons, and_iff_left short, short_loopBack, fits_testCode]
  constructor
  · rintro ⟨⟨first, far⟩, ⟨second, third⟩, back⟩
    exact ⟨first, second, third, back, far⟩
  · rintro ⟨first, second, third, back, far⟩
    exact ⟨⟨first, far⟩, ⟨second, third⟩, back⟩

theorem Poised.closeTest {t : Compiler} {w : View} (poised : Poised t w) (exit : Option Nat) :
    Verdict (closeTest exit t) (∀ q ∈ exit, w.here - q - 2 ≤ maxJump)
      { w with here := w.here + if exit.isSome then 1 else 0 } := by
  cases exit with
  | none => exact (Verdict.of_poised poised).congr (iff_of_true trivial nofun)
  | some q =>
      exact ((poised.patchJump q).step ((Reports.refl _).emitOp .pop)
        fun behind => behind.emitOp .pop).congr (by simp)

/-! Functions -/

inductive FunctionRead (fuel : Nat) (name : String) (count : Nat) (ts : List Token) :
    Function → Nat → List Token → Prop where
  | short {xs : List String} {t : Token} {us rest : List Token} {e : Expression}
    (listed : Reader.parameterList fuel ts = some (xs, t :: us)) (equal : t.kind = .equal)
    (value : Reader.expressionThen fuel .semicolon us = some (e, rest)) :
    FunctionRead fuel name count ts ⟨count, name, xs, [], some e⟩ (count + 1) rest
  | long {xs : List String} {us ws rest : List Token} {body : List Declaration} {n : Nat}
    (listed : Reader.parameterList fuel ts = some (xs, us))
    (other : ¬ (Reader.kindAt us == .equal) = true)
    (opening : Reader.expect .leftBrace us = some ws)
    (inner : Reader.block fuel (count + 1) ws = some (body, n, rest)) :
    FunctionRead fuel name count ts ⟨count, name, xs, body, none⟩ n rest

theorem functionRead {fuel count n : Nat} {name : String} {ts rest : List Token} {f : Function}
    (read : Reader.functionTail (fuel + 1) name count ts = some (f, n, rest)) :
    FunctionRead fuel name count ts f n rest := by
  simp only [Reader.functionTail, Option.bind_eq_bind, Option.bind_eq_some_iff,
    Prod.exists] at read
  obtain ⟨xs, us, listed, others⟩ := read
  split at others
  · rename_i equal
    obtain ⟨t, ws, rfl, kind⟩ := tokens_of_kind equal (by decide)
    simp only [Option.bind_eq_some_iff, Prod.exists] at others
    obtain ⟨e, rest', value, last⟩ := others
    cases last
    exact .short listed kind value
  · rename_i other
    simp only [Option.bind_eq_some_iff, Prod.exists] at others
    obtain ⟨ws, opening, body, n', rest', inner, last⟩ := others
    cases last
    exact .long listed other opening inner

theorem FunctionRead.name_eq {fuel count n : Nat} {name : String} {ts rest : List Token}
    {f : Function} (read : FunctionRead fuel name count ts f n rest) : f.name = name := by
  cases read <;> rfl

theorem short_draft {slots : List Slot} :
    (∀ d ∈ slots.map Slot.draft, d.Short) ↔ ∀ d ∈ settledOf slots, d.Short := by
  induction slots with
  | nil => exact Iff.rfl
  | cons slot rest ih =>
      rw [List.map_cons, List.forall_mem_cons, ih]
      cases slot with
      | fixed d => exact List.forall_mem_cons.symm
      | exit => exact and_iff_right fun _ => Nat.le_refl maxJump

theorem fits_compact {p : Prop} {f : Function} {isGlobal : Bool} : p ∧ f.Compact isGlobal ↔
    Fits [] p (settledOf (codeOfBody #[] 0 isGlobal f.scope none 0 f.body) ++
        codeOfOptional #[] (f.innerScope isGlobal) f.result)
      (entriesOfBody isGlobal f.scope f.body ++
        entriesOfOptional (f.innerScope isGlobal) f.result) := by
  have jumps : (∀ d ∈ f.code #[] 0 isGlobal, d.Short) ↔
      ∀ d ∈ settledOf (codeOfBody #[] 0 isGlobal f.scope none 0 f.body) ++
        codeOfOptional #[] (f.innerScope isGlobal) f.result, d.Short := by
    rw [Function.code, List.forall_mem_append, List.forall_mem_append, List.forall_mem_append,
      short_draft, and_iff_left (short_singleton (short_of_operand (by decide)))]
  constructor
  · rintro ⟨legal, compact⟩
    exact ⟨legal, jumps.mp compact.jumps, compact.constants⟩
  · intro fits
    exact ⟨fits.legal, fits.few, jumps.mpr fits.short⟩

theorem legal_iff {f : Function} : f.Legal ↔
    (f.parameters.Nodup ∧ f.parameters.length ≤ maxArguments) ∧
      Fits [] (LegalBody (.body f.parameters) f.body ∧ ∀ e ∈ f.result, e.Legal)
        (settledOf (codeOfBody #[] 0 false f.scope none 0 f.body) ++
          codeOfOptional #[] (f.innerScope false) f.result)
        (entriesOfBody false f.scope f.body ++
          entriesOfOptional (f.innerScope false) f.result) := by
  obtain ⟨index, name, xs, body, result⟩ := f
  rw [Function.Legal, ← fits_compact, maxArguments]
  simp only [and_assoc]

/-! Statements behind other code -/

theorem View.pass_fixed {v : View} {rest : List Token} {count here : Nat} {new : List Script.Entry}
    {slots : List Slot} {names : List String} (code : List Directive)
    (size : here = v.here + slotsSize slots + codeSize code) :
    { v.pass rest count new slots names with here } =
      v.pass rest count new (slots ++ fixedSlots code) names := by
  rw [size, View.pass, View.pass, exitsFrom_append, exitsFrom_fixedSlots, List.append_nil,
    slotsSize_append, slotsSize_fixedSlots, Nat.add_assoc]

namespace View.Settled

variable {v : View} (settled : v.Settled) (us rest : List Token) (m n : Nat) (new : List Script.Entry)
  (slots : List Slot) (tree : Statement)

include settled

theorem acceptsStatement_pass : (v.pass us m new slots []).AcceptsStatement tree ↔
    Fits (gather v.entries new) (tree.Legal v.context)
      (settledOf (tree.code #[] 0 v.scope v.site (v.here + slotsSize slots)))
      (tree.entries v.scope) := by
  rw [View.AcceptsStatement, settled.context_pass_nil, settled.scope_pass, List.nil_append,
    View.site_pass_nil _ _ _ _ settled.nonempty]
  rfl

theorem overStatement_pass : (v.pass us m new slots []).overStatement rest n tree =
    v.pass rest n (new ++ tree.entries v.scope)
      (slots ++ tree.code #[] 0 v.scope v.site (v.here + slotsSize slots)) [] := by
  rw [View.overStatement, settled.scope_pass, List.nil_append,
    View.site_pass_nil _ _ _ _ settled.nonempty, View.pass_pass]
  rfl

theorem site_pushLoop (start : Nat) :
    { v with loops := ⟨start, v.depth, []⟩ :: v.loops }.site = some ⟨start, v.scope.length⟩ := by
  have none : v.locals.dropLast.dropWhile (Local.isDeeper v.depth) = v.locals.dropLast := by
    cases localsEq : v.locals.dropLast with
    | nil => rfl
    | cons l rest =>
        have member : l ∈ v.locals.dropLast := by rw [localsEq]; exact List.mem_cons_self
        obtain ⟨d, known, bound⟩ := settled.bounded l (List.dropLast_subset _ member)
        rw [List.dropWhile_cons_of_neg]
        simp only [Local.isDeeper, known, Option.any_some, decide_eq_true_eq]
        omega
  rw [settled.scope_eq, List.length_map, ← none]
  rfl

end View.Settled

inductive ElseRead (fuel count : Nat) (ts : List Token) : Statement → Nat → List Token → Prop where
  | missing (other : ¬ (Reader.kindAt ts == .else) = true) : ElseRead fuel count ts .empty count ts
  | present {t : Token} {us ws rest : List Token} {tree : Statement} {n : Nat}
    (ahead : ts = t :: us) (here : t.kind = .else) (closing : Reader.expect .colon us = some ws)
    (read : Reader.statement fuel count ws = some (tree, n, rest)) :
    ElseRead fuel count ts tree n rest

inductive IfRead (fuel count : Nat) (ts : List Token) : Statement → Nat → List Token → Prop where
  | mk {c : Expression} {a b : Statement} {us ws rest : List Token} {m n : Nat}
    (test : Reader.expressionThen fuel .colon ts = some (c, us))
    (first : Reader.statement fuel count us = some (a, m, ws))
    (second : ElseRead fuel m ws b n rest) : IfRead fuel count ts (.ifElse c a b) n rest

theorem ifRead {fuel count n : Nat} {ts rest : List Token} {tree : Statement}
    (read : Reader.ifRest (fuel + 1) count ts = some (tree, n, rest)) :
    IfRead fuel count ts tree n rest := by
  simp only [Reader.ifRest, Option.bind_eq_bind, Option.bind_eq_some_iff, Prod.exists] at read
  obtain ⟨c, us, test, a, m, ws, first, others⟩ := read
  split at others
  · rename_i here
    obtain ⟨t, xs, rfl, kind⟩ := tokens_of_kind here (by decide)
    simp only [Option.bind_eq_some_iff, Prod.exists] at others
    obtain ⟨ys, closing, b, n', rest', second, last⟩ := others
    cases last
    exact .mk test first (.present rfl kind closing second)
  · rename_i other
    cases others
    exact .mk test first (.missing other)

/-! Statements -/

theorem reports_functionBody (fuel : Nat) (t : Compiler) : Reports t
    (if t.check .equal then
      ((expression fuel t.advance).consume .semicolon .expectSemicolonAfterFunction).emitOp .return
    else
      (block fuel (t.consume .leftBrace .expectBraceBeforeBody)).emitFalseReturn) := by
  split
  · exact ((reports_advance _).trans ((reports_expression _ _).trans
      (reports_consume _ _ _))).emitOp .return
  · exact (((reports_consume _ _ _).trans
      ((statementReports fuel).block _)).emitOp .false).emitOp .return

theorem reports_otherwise (fuel : Nat) (t : Compiler) : Reports t (if t.check .else then
    statement fuel (t.advance.consume .colon .expectColonAfterElse) else t) := by
  split
  · exact ((reports_advance t).trans (reports_consume _ _ _)).trans ((statementReports fuel).statement _)
  · exact .refl t

/-- With the given fuel a statement that can be read is accepted if and only if it fits. -/
structure StatementVerdicts (fuel : Nat) : Prop where
  declaration : ∀ {s : Compiler} {v : View} {d : Declaration} {n : Nat} {rest : List Token},
    Poised s v → v.Settled →
    Reader.declaration fuel v.created v.tokens = some (d, n, rest) →
    Verdict (declaration fuel s) (v.AcceptsDeclaration d) (v.overDeclaration rest n d)
  functionDeclaration : ∀ {s : Compiler} {v : View} {f : Function} {n : Nat} {rest : List Token},
    Poised s v → v.Settled → Reader.functionRest fuel v.created v.tokens = some (f, n, rest) →
    Verdict (functionDeclaration fuel s) (v.AcceptsDeclaration (.function f))
      (v.overDeclaration rest n (.function f))
  function : ∀ {s : Compiler} {v : View} {name : String} {f : Function} {n : Nat}
    {rest : List Token}, Poised s v →
    Reader.functionTail fuel name v.created v.tokens = some (f, n, rest) →
    Verdict (function fuel name s)
      (f.Legal ∧ (keep v.entries (.function f.index)).length ≤ maxConstants)
      { v with
        tokens := rest
        created := n
        entries := keep v.entries (.function f.index)
        here := v.here + 2 }
  block : ∀ {s : Compiler} {v : View} {body : List Declaration} {n : Nat} {rest : List Token},
    Poised s v → v.Settled → v.Deep →
    Reader.block fuel v.created v.tokens = some (body, n, rest) →
    Verdict (block fuel s) (v.AcceptsBody body) (v.overBody rest n body)
  statement : ∀ {s : Compiler} {v : View} {tree : Statement} {n : Nat} {rest : List Token},
    Poised s v → v.Settled → Reader.statement fuel v.created v.tokens = some (tree, n, rest) →
    Verdict (statement fuel s) (v.AcceptsStatement tree) (v.overStatement rest n tree)
  ifStatement : ∀ {s : Compiler} {v : View} {tree : Statement} {n : Nat} {rest : List Token},
    Poised s v → v.Settled → Reader.ifRest fuel v.created v.tokens = some (tree, n, rest) →
    Verdict (ifStatement fuel s) (v.AcceptsStatement tree) (v.overStatement rest n tree)
  whileStatement : ∀ {s : Compiler} {v : View} {tree : Statement} {n : Nat} {rest : List Token},
    Poised s v → v.Settled → Reader.whileRest fuel v.created v.tokens = some (tree, n, rest) →
    Verdict (whileStatement fuel s) (v.AcceptsStatement tree) (v.overStatement rest n tree)
  forStatement : ∀ {s : Compiler} {v : View} {tree : Statement} {n : Nat} {rest : List Token},
    Poised s v → v.Settled → Reader.forRest fuel v.created v.tokens = some (tree, n, rest) →
    Verdict (forStatement fuel s) (v.AcceptsStatement tree) (v.overStatement rest n tree)

theorem Poised.keyword {s : Compiler} {v : View} {kind : Kind} (poised : Poised s v)
    (settled : v.Settled) (here : Reader.kindAt v.tokens = kind) (more : kind ≠ .eof) :
    ∃ t ts, v.tokens = t :: ts ∧ Poised s.advance { v with tokens := ts } ∧
      View.Settled { v with tokens := ts } := by
  obtain ⟨t, ts, ahead, kindEq⟩ := tokens_of_kind (beq_iff_eq.mpr here) more
  exact ⟨t, ts, ahead, (poised.advance ahead (by rw [kindEq]; exact more)).1, settled.reading _⟩

theorem test_distance {v : View} {test : Option Expression} {clause inner : Nat}
    {increment : List Directive} {slots : List Slot}
    (clauseEq : clause = v.here + codeSize (testCode #[] v.scope 0 test))
    (innerEq : inner = clause + codeSize increment) :
    (∀ q ∈ test.map fun e => v.here + codeSize (e.code #[] v.scope) + 1,
        inner + slotsSize slots + 3 - q - 2 ≤ maxJump) ↔
      ∀ _e ∈ test, codeSize increment + slotsSize slots + 4 ≤ maxJump := by
  cases test with
  | none => exact iff_of_true nofun nofun
  | some e =>
      have size : codeSize (testCode #[] v.scope 0 (some e)) =
          codeSize (e.code #[] v.scope) + 4 := codeSize_append _ _
      have same : inner + slotsSize slots + 3 - (v.here + codeSize (e.code #[] v.scope) + 1) - 2 =
          codeSize increment + slotsSize slots + 4 := by
        rw [innerEq, clauseEq, size]
        omega
      constructor
      · intro all _ _
        rw [← same]
        exact all _ rfl
      · intro all q member
        obtain rfl := Option.some.inj member
        rw [same]
        exact all e rfl

namespace StatementVerdicts

variable {fuel : Nat} (ih : StatementVerdicts fuel) {s : Compiler} {v : View} {n : Nat}
  {rest : List Token}

include ih

theorem block_succ {body : List Declaration} (poised : Poised s v) (settled : v.Settled)
    (deep : v.Deep) (read : Reader.block (fuel + 1) v.created v.tokens = some (body, n, rest)) :
    Verdict (Compiler.block (fuel + 1) s) (v.AcceptsBody body) (v.overBody rest n body) := by
  rw [Reader.block] at read
  rw [Compiler.block, poised.check_eq, poised.check_eq]
  split at read
  · rename_i ended
    obtain ⟨t, ts, ahead, kind⟩ := tokens_of_kind ended (by decide)
    cases read
    rw [if_pos (by rw [ended]; rfl), overBody_nil, ahead]
    have closing : Reader.expect .rightBrace v.tokens = some ts := by
      rw [ahead, Reader.expect, if_pos kind]
    have closed := (poised.consume .expectBraceAfterBlock (by decide) closing).1
    exact (Verdict.of_poised closed).congr (iff_of_true trivial (acceptsBody_nil poised.few))
  · rename_i notClosed
    split at read
    · cases read
    · rename_i notEnded
      simp only [Option.bind_eq_bind, Option.bind_eq_some_iff, Prod.exists] at read
      obtain ⟨d, m, us, first, body', n', rest', others, last⟩ := read
      cases last
      have neither : ¬ ((Reader.kindAt v.tokens == .rightBrace) ||
          (Reader.kindAt v.tokens == .eof)) = true := by
        rw [Bool.or_eq_true]
        exact not_or.mpr ⟨notClosed, notEnded⟩
      rw [if_neg neither, acceptsBody_cons settled us m d body' deep,
        overBody_cons settled rest us m n d body' deep]
      have deeper : (v.overDeclaration us m d).Deep := View.Deep.pass _ _ _ _ deep _
      exact (ih.declaration poised settled first).and_then
        ((statementReports fuel).block _) fun _ behind =>
          ih.block behind (settled_declaration settled us m d) deeper others

theorem declaration_succ {d : Declaration} (poised : Poised s v) (settled : v.Settled)
    (read : Reader.declaration (fuel + 1) v.created v.tokens = some (d, n, rest)) :
    Verdict (Compiler.declaration (fuel + 1) s) (v.AcceptsDeclaration d)
      (v.overDeclaration rest n d) := by
  have recovered : ∀ {t : Compiler} {p : Prop} {w : View}, Verdict t p w →
      Verdict t.recover p w := fun judged => judged.step (reports_recover _) fun behind => by
    rw [recover_eq behind.audible]
    exact behind
  rw [Reader.declaration] at read
  rw [Compiler.declaration, poised.check_eq, poised.check_eq]
  refine recovered ?_
  split at read
  · rename_i here
    obtain ⟨t, ts, ahead, kind⟩ := tokens_of_kind here (by decide)
    simp only [Option.bind_eq_bind, Option.bind_eq_some_iff, Prod.exists] at read
    obtain ⟨f, n', rest', declared, last⟩ := read
    cases last
    rw [if_pos here]
    rw [ahead] at declared
    have judged := ih.functionDeclaration (poised.advance ahead (by rw [kind]; decide)).1
      (settled.reading _) declared
    exact judged
  · rename_i notFunction
    rw [if_neg notFunction]
    split at read
    · rename_i here
      obtain ⟨t, ts, ahead, kind⟩ := tokens_of_kind here (by decide)
      simp only [Option.bind_eq_bind, Option.bind_eq_some_iff, Prod.exists] at read
      obtain ⟨name, value, rest', declared, last⟩ := read
      cases last
      rw [if_pos here]
      rw [ahead] at declared
      have judged := Poised.varDeclaration (poised.advance ahead (by rw [kind]; decide)).1
        (settled.reading _) declared
      rw [View.AcceptsDeclaration, View.overDeclaration, Declaration.code, settledOf_fixedSlots,
        Declaration.Legal, Declaration.entries, Declaration.names]
      exact judged
    · rename_i notVariable
      simp only [Option.bind_eq_bind, Option.bind_eq_some_iff, Prod.exists] at read
      obtain ⟨tree, n', rest', read, last⟩ := read
      cases last
      rw [if_neg notVariable]
      exact ih.statement poised settled read

theorem functionDeclaration_succ {f : Function} (poised : Poised s v) (settled : v.Settled)
    (read : Reader.functionRest (fuel + 1) v.created v.tokens = some (f, n, rest)) :
    Verdict (Compiler.functionDeclaration (fuel + 1) s) (v.AcceptsDeclaration (.function f))
      (v.overDeclaration rest n (.function f)) := by
  simp only [Reader.functionRest, Option.bind_eq_bind, Option.bind_eq_some_iff,
    Prod.exists] at read
  obtain ⟨name, us, named, tail⟩ := read
  have same : f.name = name := by
    cases fuel with
    | zero => exact absurd tail (by simp [Reader.functionTail])
    | succ fuel => exact (functionRead tail).name_eq
  obtain ⟨parsed, lexeme⟩ := poised.parseVariable settled .expectFunctionName named
  rw [Compiler.functionDeclaration]
  generalize s.parseVariable .expectFunctionName = found at parsed lexeme
  obtain ⟨w, byte⟩ := found
  simp only [] at parsed lexeme ⊢
  have previous : w.markInitialized.previous = w.previous := by
    rw [Compiler.markInitialized]
    split
    · rfl
    · split <;> rfl
  rw [previous, lexeme]
  have marked := parsed.step (reports_markInitialized w) fun behind => behind.markInitialized rfl
  have bodied := marked.and_then ((statementReports fuel).function name _)
    fun _ behind => ih.function behind tail
  have defined := bodied.step (reports_defineVariable _ byte)
    fun behind => behind.defineVariable rfl byte
  refine (defined.congr ?_).congr_view ?_
  · have short : ∀ d ∈ (⟨.constant, Pool.findRoutine #[] ⟨0, f.index⟩⟩ : Directive) ::
        defineCode #[] (v.depth == 0) name, d.Short :=
      List.forall_mem_cons.mpr ⟨short_of_operand (by decide), short_defineCode _ _⟩
    rw [View.AcceptsDeclaration, Declaration.Legal, Declaration.code, settledOf_fixedSlots,
      Declaration.entries, same]
    constructor
    · rintro ⟨fits, legal, few⟩
      rw [← gather_nil (keep _ _)] at few
      exact ⟨⟨fits.legal, legal⟩, short, by rw [gather_append]; exact few⟩
    · intro fits
      have few := fits.few
      rw [gather_append] at few
      exact ⟨⟨fits.legal.1, List.forall_mem_nil _, Nat.le_trans (length_le_keep _ _) few⟩, fits.legal.2, few⟩
  · rw [View.overDeclaration, View.pass, Declaration.code, exitsFrom_fixedSlots, addBreaks_nil,
      slotsSize_fixedSlots, Declaration.entries, Declaration.names, same, gather_append,
      ← declared_eq, Nat.add_assoc]
    rfl

theorem function_succ {name : String} {f : Function} (poised : Poised s v)
    (read : Reader.functionTail (fuel + 1) name v.created v.tokens = some (f, n, rest)) :
    Verdict (Compiler.function (fuel + 1) name s)
      (f.Legal ∧ (keep v.entries (.function f.index)).length ≤ maxConstants)
      { v with
        tokens := rest
        created := n
        entries := keep v.entries (.function f.index)
        here := v.here + 2 } := by
  have opened := poised.opened name
  rw [Compiler.function]
  have nested : s.draft :: v.enclosing ≠ [] := List.cons_ne_nil _ _
  cases functionRead read with
  | @short xs t us rest e listed equal value =>
      have head := Poised.parameterList opened listed
      generalize parameterList fuel (s.openRoutine name).beginScope = t' at head
      have whole := head.and_then (reports_functionBody fuel t') fun _ behind => by
        have here : t'.check .equal = true := by
          rw [behind.check_eq]
          exact beq_iff_eq.mpr equal
        have passed : Poised t'.advance
            (.listed us v.created (s.draft :: v.enclosing) v.identity.unit xs) :=
          (behind.advance rfl (by rw [equal]; decide)).1
        rw [if_pos here]
        exact passed.valueStatement .expectSemicolonAfterFunction .return rfl value
      refine (whole.and_then (reports_closeRoutine _) fun _ behind =>
        poised.closeRoutine behind rfl rfl (Nat.lt_succ_self _)).congr ?_
      rw [legal_iff, (View.settled_listed ..).accepts_iff, View.scope_listed]
      refine and_congr (and_congr Iff.rfl ?_) Iff.rfl
      simp only [LegalBody, codeOfBody, entriesOfBody, Function.innerScope, namesOf]
      exact fits_congr (by simp)
  | @long xs us ws rest body n listed other opening inner =>
      obtain ⟨u, derived, -, -⟩ := (Grammar.unitsRead fuel).block inner
      have later : v.created < n := derived.counts
      have head := Poised.parameterList opened listed
      generalize parameterList fuel (s.openRoutine name).beginScope = t' at head
      have whole := head.and_then (reports_functionBody fuel t') fun _ behind => by
        have here : ¬ t'.check .equal = true := by
          rw [behind.check_eq]
          exact other
        have passed : Poised (t'.consume .leftBrace .expectBraceBeforeBody)
            (.listed ws v.created (s.draft :: v.enclosing) v.identity.unit xs) :=
          (behind.consume .expectBraceBeforeBody (by decide) opening).1
        rw [if_neg here]
        have inside := ih.block passed (View.settled_listed _ _ _ _ _)
          (View.deep_listed _ _ _ _ _) inner
        exact (inside.step ((Reports.refl _).emitOp .false) fun behind => behind.emitOp .false).step
          ((Reports.refl _).emitOp .return) fun behind => behind.emitOp .return
      refine (whole.and_then (reports_closeRoutine _) fun _ behind =>
        poised.closeRoutine behind rfl rfl later).congr ?_
      rw [legal_iff, View.AcceptsBody, View.context_listed _ _ _ _ nested, View.scope_listed]
      refine and_congr (and_congr Iff.rfl ?_) Iff.rfl
      rw [codeOfOptional, fits_short (short_singleton (short_of_operand (by decide))),
        entriesOfOptional, List.append_nil]
      exact fits_congr (by simp)

theorem loop_body {t : Compiler} {us : List Token} {es : List Script.Entry} {tree : Statement}
    {test step : Option Expression} {clause inner again : Nat} {increment : List Directive}
    {exit : Option Nat} {slots : List Slot} (settled : v.Settled)
    (clauseEq : clause = v.here + codeSize (testCode #[] v.scope 0 test))
    (incrementEq : increment = stepCode #[] v.scope clause v.here step)
    (innerEq : inner = clause + codeSize increment)
    (againEq : again = stepStart clause v.here step)
    (exitEq : exit = test.map fun e => v.here + codeSize (e.code #[] v.scope) + 1)
    (slotsEq : slots =
      tree.code #[] 0 v.scope (some ⟨stepStart clause v.here step, v.scope.length⟩) inner)
    (poised : Poised t { v with tokens := us, entries := es, here := inner })
    (read : Reader.statement fuel v.created us = some (tree, n, rest)) :
    Verdict (closeTest exit ((Compiler.statement fuel (t.pushLoop again)).emitLoop again)).popLoop
      (Fits es (tree.Legal v.context.looping) (resolveFrom
          (inner + slotsSize slots + 3 + codeSize (closingCode test)) inner slots)
          (tree.entries v.scope) ∧
        inner + slotsSize slots + 3 - stepStart clause v.here step ≤ maxJump ∧
        ∀ _e ∈ test, codeSize increment + slotsSize slots + 4 ≤ maxJump)
      { v with
        tokens := rest
        created := n
        entries := gather es (tree.entries v.scope)
        here := inner + slotsSize slots + 3 + codeSize (closingCode test) } := by
  rw [← againEq] at slotsEq ⊢
  have before : again ≤ inner := by
    rw [againEq, innerEq, incrementEq]
    exact stepStart_le _ _ (by rw [clauseEq]; exact Nat.le_add_right _ _) step
  have entered := poised.pushLoop again
  have settledBody : View.Settled { v with
      tokens := us
      entries := es
      here := inner
      loops := ⟨again, v.depth, []⟩ :: v.loops } := by
    have behind : v.here ≤ inner := by
      rw [innerEq, clauseEq, Nat.add_assoc]
      exact Nat.le_add_right _ _
    have onward : View.Settled { v with tokens := us, entries := es, here := inner } :=
      settled.onward rfl rfl rfl behind
    exact onward.pushLoop before
  have body := ih.statement entered settledBody read
  have site := settled.site_pushLoop again
  generalize Compiler.statement fuel (t.pushLoop again) = u at body
  have judged : Verdict u (Fits es (tree.Legal v.context.looping) (settledOf slots)
      (tree.entries v.scope)) { v with
        tokens := rest
        created := n
        entries := gather es (tree.entries v.scope)
        here := inner + slotsSize slots
        loops := ⟨again, v.depth, exitsFrom inner slots⟩ :: v.loops } := by
    subst slotsEq
    rw [← site]
    exact body
  have looped := (judged.and_then (reports_emitLoop u again) fun _ behind =>
    behind.emitLoop (Nat.le_trans before (Nat.le_add_right _ _))).and_then
      (reports_closeTest exit _) fun _ behind => behind.closeTest exit
  have target : (if exit.isSome then 1 else 0) = codeSize (closingCode test) := by
    rw [exitEq, Option.isSome_map]
    cases test <;> rfl
  simp only [target] at looped
  refine (looped.and_then (reports_popLoop _) fun _ behind => behind.popLoop rfl).congr ?_
  have distance := @test_distance v test clause inner increment slots clauseEq innerEq
  rw [← exitEq] at distance
  rw [fits_resolveFrom, ← distance]
  constructor
  · rintro ⟨⟨⟨fits, back⟩, far⟩, exits⟩
    exact ⟨⟨fits, exits⟩, back, far⟩
  · rintro ⟨⟨fits, exits⟩, back, far⟩
    exact ⟨⟨⟨fits, back⟩, far⟩, exits⟩

theorem loop_rest {t : Compiler} {us : List Token} {a b : List Script.Entry} {p q : Prop} {tree : Statement}
    (test step : Option Expression) {clause inner again : Nat} {increment : List Directive}
    {exit : Option Nat} (settled : v.Settled)
    (clauseEq : clause = v.here + codeSize (testCode #[] v.scope 0 test))
    (incrementEq : increment = stepCode #[] v.scope clause v.here step)
    (innerEq : inner = clause + codeSize increment)
    (againEq : t.diagnostics = #[] → again = stepStart clause v.here step)
    (exitEq : t.diagnostics = #[] →
      exit = test.map fun e => v.here + codeSize (e.code #[] v.scope) + 1)
    (clauses : Verdict t (Fits v.entries p (testCode #[] v.scope 0 test) a ∧
        Fits (gather v.entries a) q increment b)
      { v with tokens := us, entries := gather v.entries (a ++ b), here := inner })
    (read : Reader.statement fuel v.created us = some (tree, n, rest)) :
    Verdict (closeTest exit ((Compiler.statement fuel (t.pushLoop again)).emitLoop again)).popLoop
      (Fits v.entries (p ∧ q ∧ tree.Legal v.context.looping)
        (loopCode #[] v.scope v.here test step fun site p => tree.code #[] 0 v.scope (some site) p)
        (a ++ (b ++ tree.entries v.scope)))
      (v.pass rest n (a ++ (b ++ tree.entries v.scope)) (fixedSlots
        (loopCode #[] v.scope v.here test step fun site p =>
          tree.code #[] 0 v.scope (some site) p)) []) := by
  have grown : Reports t (closeTest exit
      ((Compiler.statement fuel (t.pushLoop again)).emitLoop again)).popLoop :=
    (((Reports.refl t).pushLoop again).trans ((statementReports fuel).statement _)).trans
      ((reports_emitLoop _ _).trans ((reports_closeTest exit _).trans (reports_popLoop _)))
  refine ((clauses.and_then grown fun _ behind => ih.loop_body settled clauseEq incrementEq innerEq
    (againEq behind.clean) (exitEq behind.clean) rfl behind read).congr ?_).congr_view ?_
  · rw [fits_loopCode clauseEq incrementEq innerEq rfl, gather_append, and_assoc]
  · rw [View.pass, exitsFrom_fixedSlots, addBreaks_nil, slotsSize_fixedSlots, codeSize_loopCode,
      ← clauseEq, ← incrementEq, ← innerEq, ← List.append_assoc]
    congr 1
    · exact (gather_append ..).symm
    · omega

theorem whileStatement_succ {tree : Statement} (poised : Poised s v) (settled : v.Settled)
    (read : Reader.whileRest (fuel + 1) v.created v.tokens = some (tree, n, rest)) :
    Verdict (Compiler.whileStatement (fuel + 1) s) (v.AcceptsStatement tree)
      (v.overStatement rest n tree) := by
  simp only [Reader.whileRest, Option.bind_eq_bind, Option.bind_eq_some_iff, Prod.exists] at read
  obtain ⟨c, us, test, inner, n', rest', body, last⟩ := read
  cases last
  have unfolded : Compiler.whileStatement (fuel + 1) s = (closeTest
      (some (((expression fuel s).consume .colon .expectColonAfterCondition).here + 1))
      ((Compiler.statement fuel (((((expression fuel s).consume .colon
        .expectColonAfterCondition).emitJump .jumpIfFalse).emitOp .pop).pushLoop v.here)).emitLoop
          v.here)).popLoop := by
    rw [Compiler.whileStatement, ← poised.here]
    rfl
  rw [unfolded]
  have judged := poised.expressionThen .expectColonAfterCondition (by decide) test
  generalize (expression fuel s).consume .colon .expectColonAfterCondition = t at judged
  have size : codeSize (testCode #[] v.scope 0 (some c)) = codeSize (c.code #[] v.scope) + 4 :=
    codeSize_append _ _
  have tested : Verdict ((t.emitJump .jumpIfFalse).emitOp .pop)
      (Fits v.entries c.Legal (testCode #[] v.scope 0 (some c)) (c.entries v.scope) ∧
        Fits (gather v.entries (c.entries v.scope)) True [] [])
      { v with
        tokens := us
        entries := gather v.entries (c.entries v.scope ++ [])
        here := v.here + codeSize (c.code #[] v.scope) + 4 } := by
    rw [List.append_nil]
    refine (judged.step (((Reports.refl t).emitJump .jumpIfFalse).emitOp .pop) fun behind =>
      (behind.emitJump .jumpIfFalse).emitOp .pop).congr ?_
    rw [settled.accepts_test]
    exact (and_iff_left_of_imp fun first => ⟨trivial, List.forall_mem_nil _, first.few⟩).symm
  refine ((ih.loop_rest (some c) none settled rfl rfl
    (congrArg (v.here + ·) size).symm (fun _ => rfl) ?_ tested body).congr ?_).congr_view ?_
  · intro clean
    rw [(judged.poised clean).here]
    rfl
  · rw [View.AcceptsStatement, Statement.Legal, Statement.code, settledOf_fixedSlots,
      Statement.entries, true_and]
    exact Iff.rfl
  · rw [View.overStatement, Statement.code, Statement.entries]
    rfl

theorem for_rest {t : Compiler} {us ws : List Token} {test step : Option Expression}
    {tree : Statement} (poised : Poised t v) (settled : v.Settled)
    (readTest : Reader.clause fuel .semicolon v.tokens = some (test, us))
    (readStep : Reader.clause fuel .colon us = some (step, ws))
    (read : Reader.statement fuel v.created ws = some (tree, n, rest)) :
    Verdict (closeTest (forCondition fuel t).2
        ((Compiler.statement fuel ((forIncrement fuel t.here (forCondition fuel t).1).1.pushLoop
          (forIncrement fuel t.here (forCondition fuel t).1).2)).emitLoop
            (forIncrement fuel t.here (forCondition fuel t).1).2)).popLoop
      (Fits v.entries ((∀ e ∈ test, e.Legal) ∧ (∀ e ∈ step, e.Legal) ∧
          tree.Legal v.context.looping)
        (loopCode #[] v.scope v.here test step fun site p => tree.code #[] 0 v.scope (some site) p)
        (entriesOfOptional v.scope test ++ (entriesOfOptional v.scope step ++
          tree.entries v.scope)))
      (v.pass rest n (entriesOfOptional v.scope test ++ (entriesOfOptional v.scope step ++
          tree.entries v.scope)) (fixedSlots (loopCode #[] v.scope v.here test step fun site p =>
            tree.code #[] 0 v.scope (some site) p)) []) := by
  obtain ⟨tested, exits⟩ := poised.forCondition settled readTest
  rw [poised.here]
  have before : v.here ≤ v.here + codeSize (testCode #[] v.scope 0 test) := Nat.le_add_right _ _
  have settledTest : (v.after us (entriesOfOptional v.scope test)
      (codeSize (testCode #[] v.scope 0 test))).Settled := by
    rw [View.after_eq_pass]
    exact settled.pass ..
  have grown := reports_forIncrement (s := (forCondition fuel t).1) fuel v.here
  have clauses := tested.and_then grown fun _ behind =>
    (behind.forIncrement settledTest before readStep).1
  rw [View.after_after] at clauses
  exact ih.loop_rest test step settled rfl rfl (Nat.add_assoc _ _ _).symm
    (fun done => (Poised.forIncrement (tested.poised (grown.clean done)) settledTest before
      readStep).2)
    (fun done => exits (grown.clean done)) clauses read

theorem forStatement_succ {tree : Statement} (poised : Poised s v) (settled : v.Settled)
    (read : Reader.forRest (fuel + 1) v.created v.tokens = some (tree, n, rest)) :
    Verdict (Compiler.forStatement (fuel + 1) s) (v.AcceptsStatement tree)
      (v.overStatement rest n tree) := by
  simp only [Reader.forRest, Option.bind_eq_bind, Option.bind_eq_some_iff, Prod.exists] at read
  obtain ⟨first, ts, readFirst, test, us, readTest, step, ws, readStep, inner, n', rest', body,
    last⟩ := read
  cases last
  have unfolded : Compiler.forStatement (fuel + 1) s =
      (closeTest (forCondition fuel (forInitializer fuel s.beginScope)).2
        ((Compiler.statement fuel ((forIncrement fuel (forInitializer fuel s.beginScope).here
          (forCondition fuel (forInitializer fuel s.beginScope)).1).1.pushLoop
            (forIncrement fuel (forInitializer fuel s.beginScope).here
              (forCondition fuel (forInitializer fuel s.beginScope)).1).2)).emitLoop
            (forIncrement fuel (forInitializer fuel s.beginScope).here
              (forCondition fuel (forInitializer fuel s.beginScope)).1).2)).popLoop.endScope := by
    rw [Compiler.forStatement]
    rfl
  rw [unfolded]
  have opening := poised.beginScope.forInitializer settled.inner (Nat.succ_ne_zero _) readFirst
  generalize forInitializer fuel s.beginScope = t at opening
  have scope : (v.inner.pass ts v.created (first.entries v.scope)
      (fixedSlots (first.code #[] v.scope)) first.names).scope = first.names ++ v.scope :=
    settled.inner.scope_pass ..
  have context : (v.inner.pass ts v.created (first.entries v.scope)
      (fixedSlots (first.code #[] v.scope)) first.names).context =
        v.context.inner.add first.names := by
    rw [settled.inner.context_pass _ _ _ _ (absurd · (Nat.succ_ne_zero _)),
      settled.context_inner]
  have here : (v.inner.pass ts v.created (first.entries v.scope)
      (fixedSlots (first.code #[] v.scope)) first.names).here =
        v.here + codeSize (first.code #[] v.scope) := by
    rw [View.pass, slotsSize_fixedSlots]
    rfl
  have grown : Reports t (closeTest (forCondition fuel t).2
      ((Compiler.statement fuel ((forIncrement fuel t.here (forCondition fuel t).1).1.pushLoop
        (forIncrement fuel t.here (forCondition fuel t).1).2)).emitLoop
          (forIncrement fuel t.here (forCondition fuel t).1).2)).popLoop :=
    (((reports_forCondition _ _).trans ((reports_forIncrement _ _ _).pushLoop _)).trans
      ((statementReports fuel).statement _)).trans
        ((reports_emitLoop _ _).trans ((reports_closeTest _ _).trans (reports_popLoop _)))
  have judged := opening.and_then grown fun _ behind =>
    ih.for_rest behind (settled.inner.pass ..) readTest readStep body
  rw [settled.context_inner] at judged
  refine ((judged.step (reports_endScope _) fun behind =>
    behind.endScope first.names settled rfl rfl).congr ?_).congr_view ?_
  · rw [View.AcceptsStatement, Statement.Legal, Statement.code, settledOf_fixedSlots,
      Statement.entries]
    rw [fits_short (short_popCode _), List.append_assoc, List.append_assoc, fits_append, ← scope,
      ← context, ← here]
    exact Iff.rfl
  · rw [View.overStatement, Statement.code, Statement.entries]
    rw [← scope, ← here, List.append_assoc, List.append_assoc]
    simp only [View.pass, exitsFrom_fixedSlots, addBreaks_nil, slotsSize_fixedSlots,
      codeSize_append, gather_append, Nat.add_assoc]
    rfl

theorem else_clause {tree : Statement} (poised : Poised s v) (settled : v.Settled)
    (read : ElseRead fuel v.created v.tokens tree n rest) :
    Verdict (if s.check .else then
        Compiler.statement fuel (s.advance.consume .colon .expectColonAfterElse) else s)
      (v.AcceptsStatement tree) (v.overStatement rest n tree) := by
  cases read with
  | missing other =>
      rw [if_neg (by rw [poised.check_eq]; exact other)]
      refine ((Verdict.of_poised poised).congr ?_).congr_view ?_
      · rw [View.AcceptsStatement, Statement.Legal, Statement.code, Statement.entries]
        exact iff_of_true trivial ⟨trivial, List.forall_mem_nil _, poised.few⟩
      · rw [View.overStatement, Statement.code, Statement.entries, View.pass, exitsFrom,
          addBreaks_nil]
        rfl
  | present ahead here closing read =>
      rw [if_pos (by rw [poised.check_eq, ahead]; exact beq_iff_eq.mpr here)]
      have passed := (poised.advance ahead (by rw [here]; decide)).1
      have judged := ih.statement (Poised.consume passed .expectColonAfterElse (by decide) closing).1
        (settled.reading _) read
      exact judged

theorem consequent {t : Compiler} {c : Expression} {a : Statement} {us ws : List Token} {m : Nat}
    (settled : v.Settled) (judged : Verdict t (v.Accepts c) (v.overOne us c))
    (read : Reader.statement fuel v.created us = some (a, m, ws)) {code : List Directive}
    {slots : List Slot} (testEq : testCode #[] v.scope 0 (some c) = code)
    (slotsEq : a.code #[] 0 v.scope v.site (v.here + slotsSize (fixedSlots code)) = slots) :
    Verdict (Compiler.statement fuel ((t.emitJump .jumpIfFalse).emitOp .pop))
      (Fits v.entries c.Legal code (c.entries v.scope) ∧
        Fits (gather v.entries (c.entries v.scope)) (a.Legal v.context) (settledOf slots)
          (a.entries v.scope))
      (v.pass ws m (c.entries v.scope ++ a.entries v.scope) (fixedSlots code ++ slots) []) := by
  have size : codeSize code = codeSize (c.code #[] v.scope) + 4 := by
    rw [← testEq]
    exact codeSize_append _ _
  have opened : Verdict ((t.emitJump .jumpIfFalse).emitOp .pop)
      (Fits v.entries c.Legal code (c.entries v.scope))
      (v.pass us v.created (c.entries v.scope) (fixedSlots code) []) := by
    rw [← View.after_eq_pass, size, ← testEq, ← settled.accepts_test]
    exact judged.step (((Reports.refl t).emitJump .jumpIfFalse).emitOp .pop) fun behind =>
      (behind.emitJump .jumpIfFalse).emitOp .pop
  have body := opened.and_then ((statementReports fuel).statement _) fun _ behind =>
    ih.statement behind (settled.pass ..) read
  rw [settled.acceptsStatement_pass, settled.overStatement_pass, slotsEq] at body
  exact body

omit ih in
theorem over_alternative {t u : Compiler} {c : Expression} {us ws : List Token} {m : Nat}
    {p : Prop} {es : List Script.Entry} {code : List Directive} {slots : List Slot}
    (judged : Verdict t (v.Accepts c) (v.overOne us c)) (grown : Reports t u)
    (sizeEq : codeSize code = codeSize (c.code #[] v.scope) + 4)
    (body : Verdict u p (v.pass ws m es (fixedSlots code ++ slots) [])) :
    Verdict (((u.emitJump .jump).patchJump (t.here + 1)).emitOp .pop)
      (p ∧ slotsSize slots + 4 ≤ maxJump)
      (v.pass ws m es (fixedSlots code ++ slots ++ fixedSlots [⟨.jump, 0⟩, ⟨.pop, 0⟩]) []) := by
  have patched := body.and_then (((Reports.refl u).emitJump .jump).trans
    (reports_patchJump _ (t.here + 1))) fun _ behind =>
      (behind.emitJump .jump).patchJump (t.here + 1)
  refine ((patched.step ((Reports.refl _).emitOp .pop) fun behind =>
    behind.emitOp .pop).congr (and_congr_right fun holds => ?_)).congr_view ?_
  · have here := (judged.poised (grown.clean (body.clean_iff.mpr holds))).here
    have distance : v.here + slotsSize (fixedSlots code ++ slots) + 3 - (t.here + 1) - 2 =
        slotsSize slots + 4 := by
      rw [here, slotsSize_append, slotsSize_fixedSlots, sizeEq]
      simp only [View.overOne, View.after]
      omega
    exact iff_of_eq (congrArg (· ≤ maxJump) distance)
  · exact View.pass_fixed [⟨.jump, 0⟩, ⟨.pop, 0⟩] rfl

theorem ifStatement_succ {tree : Statement} (poised : Poised s v) (settled : v.Settled)
    (read : Reader.ifRest (fuel + 1) v.created v.tokens = some (tree, n, rest)) :
    Verdict (Compiler.ifStatement (fuel + 1) s) (v.AcceptsStatement tree)
      (v.overStatement rest n tree) := by
  obtain @⟨c, a, b, us, ws, rest, m, n, test, first, second⟩ := ifRead read
  rw [Compiler.ifStatement]
  have judged := poised.expressionThen .expectColonAfterCondition (by decide) test
  generalize (expression fuel s).consume .colon .expectColonAfterCondition = t at judged
  generalize testEq : testCode #[] v.scope 0 (some c) = code
  have size : codeSize code = codeSize (c.code #[] v.scope) + 4 := by
    rw [← testEq]
    exact codeSize_append _ _
  generalize firstEq : a.code #[] 0 v.scope v.site (v.here + slotsSize (fixedSlots code)) = slots
  have consequent := ih.consequent settled judged first testEq firstEq
  have grownBody := ((((Reports.refl t).emitJump .jumpIfFalse).emitOp .pop).trans
    ((statementReports fuel).statement _))
  generalize Compiler.statement fuel ((t.emitJump .jumpIfFalse).emitOp .pop) = u
    at consequent grownBody
  have opening := over_alternative judged grownBody size consequent
  generalize (((u.emitJump .jump).patchJump (t.here + 1)).emitOp .pop) = w at opening
  have grownElse := reports_otherwise fuel w
  have alternative := opening.and_then grownElse fun _ behind =>
    ih.else_clause behind (settled.pass ..) second
  rw [settled.acceptsStatement_pass, settled.overStatement_pass] at alternative
  generalize (if w.check .else then
    Compiler.statement fuel (w.advance.consume .colon .expectColonAfterElse) else w) = x
    at alternative grownElse
  have before : v.here + slotsSize (fixedSlots code) = v.here + codeSize (c.code #[] v.scope) + 4 := by
    rw [slotsSize_fixedSlots, size, Nat.add_assoc]
  have between : v.here + slotsSize (fixedSlots code ++ slots ++ fixedSlots [⟨.jump, 0⟩, ⟨.pop, 0⟩]) =
      v.here + codeSize (c.code #[] v.scope) + 4 + slotsSize slots + 4 := by
    rw [slotsSize_append, slotsSize_append, ← Nat.add_assoc, ← Nat.add_assoc, before]
    rfl
  rw [between] at alternative
  generalize secondEq : b.code #[] 0 v.scope v.site
    (v.here + codeSize (c.code #[] v.scope) + 4 + slotsSize slots + 4) = others at alternative
  rw [before] at firstEq
  have codeEq : (Statement.ifElse c a b).code #[] 0 v.scope v.site v.here =
      fixedSlots (c.code #[] v.scope ++ [⟨.jumpIfFalse, slotsSize slots + 4⟩, { op := .pop }]) ++
        slots ++ fixedSlots [⟨.jump, slotsSize others + 1⟩, { op := .pop }] ++ others := by
    rw [Statement.code, firstEq, secondEq]
  refine ((alternative.and_then (reports_patchJump x (u.here + 1)) fun _ behind =>
    behind.patchJump (u.here + 1)).congr ?_).congr_view ?_
  · rw [View.AcceptsStatement, codeEq, Statement.Legal, Statement.entries, ← and_assoc]
    simp only [settledOf_append, settledOf_fixedSlots]
    rw [fits_append, fits_behind, fits_append, fits_behind, short_jump_pop rfl, short_jump_pop rfl]
    have tested : Fits v.entries c.Legal (c.code #[] v.scope) (c.entries v.scope) ↔
        Fits v.entries c.Legal code (c.entries v.scope) := by
      rw [← settled.accepts_iff, settled.accepts_test, testEq]
    rw [tested]
    have distance : u.diagnostics = #[] →
        v.here + slotsSize (fixedSlots code ++ slots ++ fixedSlots [⟨.jump, 0⟩, ⟨.pop, 0⟩] ++
          others) - (u.here + 1) - 2 = slotsSize others + 1 := by
      intro clean
      have hereU := (consequent.poised clean).here
      rw [View.pass] at hereU
      simp only [slotsSize_append, ← Nat.add_assoc, before] at hereU
      rw [hereU, slotsSize_append, ← Nat.add_assoc, between]
      omega
    constructor
    · rintro ⟨⟨⟨⟨test, first⟩, far⟩, second⟩, back⟩
      refine ⟨⟨⟨⟨test, far⟩, first⟩, ?_⟩, second⟩
      rw [← distance (consequent.clean_iff.mpr ⟨test, first⟩)]
      exact back
    · rintro ⟨⟨⟨⟨test, far⟩, first⟩, back⟩, second⟩
      rw [← distance (consequent.clean_iff.mpr ⟨test, first⟩)] at back
      exact ⟨⟨⟨⟨test, first⟩, far⟩, second⟩, back⟩
  · rw [View.overStatement, codeEq, Statement.entries]
    refine View.pass_congr rfl ?_ ?_
    · simp only [slotsSize_append, slotsSize_fixedSlots, size, codeSize_append]
      rfl
    · simp only [exitsFrom_append, exitsFrom_fixedSlots, slotsSize_append, slotsSize_fixedSlots, size,
        codeSize_append]
      rfl

theorem block_statement {body : List Declaration} (poised : Poised s v) (settled : v.Settled)
    (read : Reader.block fuel v.created v.tokens = some (body, n, rest)) :
    Verdict (Compiler.block fuel s.beginScope).endScope (v.AcceptsStatement (.block body))
      (v.overStatement rest n (.block body)) := by
  have judged := ih.block poised.beginScope settled.inner settled.deep_inner read
  have site : v.inner.site = v.site := rfl
  refine ((judged.step (reports_endScope _) fun behind =>
    behind.endScope (namesOf false body) settled rfl rfl).congr ?_).congr_view ?_
  · rw [View.AcceptsBody, settled.context_inner, View.AcceptsStatement, Statement.Legal,
      Statement.code, settledOf_append, settledOf_fixedSlots, Statement.entries,
      fits_short (short_popCode _)]
    exact Iff.rfl
  · rw [View.overBody, View.overStatement, Statement.code, Statement.entries]
    refine Eq.trans ?_ (View.pass_fixed _ rfl)
    rfl

theorem statement_succ {tree : Statement} (poised : Poised s v) (settled : v.Settled)
    (read : Reader.statement (fuel + 1) v.created v.tokens = some (tree, n, rest)) :
    Verdict (Compiler.statement (fuel + 1) s) (v.AcceptsStatement tree)
      (v.overStatement rest n tree) := by
  rw [Reader.statement] at read
  split at read
  · rename_i kindEq
    obtain ⟨t, ts, ahead, behind, -⟩ := poised.keyword settled kindEq (by decide)
    rw [Compiler.statement, ← poised.kindAt, kindEq]
    rw [ahead] at read
    simp only [Option.bind_eq_bind, Option.bind_eq_some_iff, Prod.exists] at read
    obtain ⟨e, rest', value, last⟩ := read
    cases last
    refine ((behind.valueStatement .expectSemicolonAfterPrint .print rfl value).congr ?_).congr_view ?_
    · rw [View.AcceptsStatement, Statement.Legal, Statement.code, settledOf_fixedSlots,
        Statement.entries, fits_short (short_singleton (short_of_operand (by decide))),
        ← settled.accepts_iff]
      exact Iff.rfl
    · rw [View.overStatement, Statement.code, Statement.entries]
      rfl
  · rename_i kindEq
    obtain ⟨t, ts, ahead, behind, between⟩ := poised.keyword settled kindEq (by decide)
    rw [Compiler.statement, ← poised.kindAt, kindEq]
    rw [ahead] at read
    have judged := ih.ifStatement behind between read
    exact judged
  · rename_i kindEq
    obtain ⟨t, ts, ahead, behind, between⟩ := poised.keyword settled kindEq (by decide)
    rw [Compiler.statement, ← poised.kindAt, kindEq]
    rw [ahead] at read
    have judged := ih.whileStatement behind between read
    exact judged
  · rename_i kindEq
    obtain ⟨t, ts, ahead, behind, between⟩ := poised.keyword settled kindEq (by decide)
    rw [Compiler.statement, ← poised.kindAt, kindEq]
    rw [ahead] at read
    have judged := ih.forStatement behind between read
    exact judged
  · rename_i kindEq
    obtain ⟨t, ts, ahead, behind, between⟩ := poised.keyword settled kindEq (by decide)
    rw [Compiler.statement, ← poised.kindAt, kindEq]
    rw [ahead] at read
    simp only [Option.bind_eq_bind, Option.bind_eq_some_iff] at read
    obtain ⟨rest', closing, last⟩ := read
    cases last
    refine ((behind.breakStatement between closing).congr ?_).congr_view ?_
    · have short : ∀ d ∈ settledOf (Statement.break.code #[] 0 v.scope v.site v.here), d.Short := by
        cases v.site with
        | none => exact List.forall_mem_nil _
        | some site =>
            rw [Statement.code, settledOf_append, settledOf_fixedSlots]
            exact List.forall_mem_append.mpr ⟨short_popCode _, List.forall_mem_nil _⟩
      rw [View.AcceptsStatement, Statement.Legal, Statement.entries]
      exact ⟨fun inside => ⟨inside, short, poised.few⟩, fun fits => fits.legal⟩
    · rw [View.overStatement, Statement.entries]
      rfl
  · rename_i kindEq
    obtain ⟨t, ts, ahead, behind, between⟩ := poised.keyword settled kindEq (by decide)
    rw [Compiler.statement, ← poised.kindAt, kindEq]
    rw [ahead] at read
    simp only [Option.bind_eq_bind, Option.bind_eq_some_iff] at read
    obtain ⟨rest', closing, last⟩ := read
    cases last
    refine ((behind.continueStatement between closing).congr ?_).congr_view ?_
    · rw [View.AcceptsStatement, Statement.Legal, Statement.entries]
      exact ⟨fun both => ⟨both.1, both.2, poised.few⟩, fun fits => ⟨fits.legal, fits.short⟩⟩
    · rw [View.overStatement, Statement.entries]
      rfl
  · rename_i kindEq
    obtain ⟨t, ts, ahead, behind, between⟩ := poised.keyword settled kindEq (by decide)
    rw [Compiler.statement, ← poised.kindAt, kindEq]
    rw [ahead] at read
    simp only [Option.bind_eq_bind, Option.bind_eq_some_iff, Prod.exists] at read
    obtain ⟨value, rest', clause, last⟩ := read
    cases last
    rw [View.AcceptsStatement, Statement.Legal, View.overStatement, Statement.code,
      settledOf_fixedSlots, Statement.entries]
    have judged := behind.returnStatement between clause
    exact judged
  · rename_i kindEq
    obtain ⟨t, ts, ahead, behind, between⟩ := poised.keyword settled kindEq (by decide)
    rw [Compiler.statement, ← poised.kindAt, kindEq]
    rw [ahead] at read
    simp only [Option.bind_eq_bind, Option.bind_eq_some_iff, Prod.exists] at read
    obtain ⟨body, n', rest', inner, last⟩ := read
    cases last
    have judged := ih.block_statement behind between inner
    exact judged
  · simp only [Option.bind_eq_bind, Option.bind_eq_some_iff, Prod.exists] at read
    obtain ⟨e, rest', value, last⟩ := read
    cases last
    have judged : Verdict (expressionStatement fuel s) (v.AcceptsStatement (.expression e))
        (v.overStatement rest v.created (.expression e)) := by
      refine ((poised.valueStatement .expectSemicolonAfterExpression .pop rfl value).congr
        ?_).congr_view ?_
      · rw [View.AcceptsStatement, Statement.Legal, Statement.code, settledOf_fixedSlots,
          Statement.entries, fits_short (short_singleton (short_of_operand (by decide))),
          ← settled.accepts_iff]
      · rw [View.overStatement, Statement.code, Statement.entries]
    rw [Compiler.statement, ← poised.kindAt]
    split
    all_goals first
      | contradiction
      | exact judged

end StatementVerdicts

theorem statementVerdicts (fuel : Nat) : StatementVerdicts fuel := by
  induction fuel with
  | zero =>
      exact {
        declaration := fun _ _ read => absurd read (by simp [Reader.declaration])
        functionDeclaration := fun _ _ read => absurd read (by simp [Reader.functionRest])
        function := fun _ read => absurd read (by simp [Reader.functionTail])
        block := fun _ _ _ read => absurd read (by simp [Reader.block])
        statement := fun _ _ read => absurd read (by simp [Reader.statement])
        ifStatement := fun _ _ read => absurd read (by simp [Reader.ifRest])
        whileStatement := fun _ _ read => absurd read (by simp [Reader.whileRest])
        forStatement := fun _ _ read => absurd read (by simp [Reader.forRest]) }
  | succ fuel ih =>
      exact {
        declaration := ih.declaration_succ
        functionDeclaration := ih.functionDeclaration_succ
        function := ih.function_succ
        block := ih.block_succ
        statement := ih.statement_succ
        ifStatement := ih.ifStatement_succ
        whileStatement := ih.whileStatement_succ
        forStatement := ih.forStatement_succ }

end Reckoner.Compiler
