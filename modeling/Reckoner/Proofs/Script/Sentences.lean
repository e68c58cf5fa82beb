import Reckoner.Proofs.Script.Phrases

/-!
Reading whole sources. A source is read exactly if it is a sentence, and its tree is the one in which
every `else` belongs to the nearest `if`.
-/

namespace Reckoner.Script.Grammar

open Compiler (Precedence isAssignment beginsExpression)
open Reader (kindAt)

/-! Clauses and lists of names -/

section Clauses

variable {fuel : Nat} {kind : Kind} {ts rest : List Token}

theorem ended_of_read {e : Expression} (read : Reader.expressionThen fuel kind ts = some (e, rest)) :
    Ended kind ts e rest := by
  simp only [Reader.expressionThen, Option.bind_eq_bind] at read
  obtain ⟨⟨value, us⟩, found, read⟩ := Option.bind_eq_some_iff.mp read
  obtain ⟨vs, passed, read⟩ := Option.bind_eq_some_iff.mp read
  cases read
  obtain ⟨u, rfl, closing⟩ := expect_eq passed
  exact .intro ((phrasesRead fuel).expression found).1 closing

structure Separates (kind : Kind) : Prop where
  loose : Precedence.ofKind kind < Precedence.assignment
  plain : isAssignment kind = false
  other : beginsExpression kind = false

theorem separates_semicolon : Separates .semicolon := ⟨by decide, rfl, rfl⟩

theorem separates_colon : Separates .colon := ⟨by decide, rfl, rfl⟩

theorem Ended.read {e : Expression} (ended : Ended kind ts e rest) (separates : Separates kind)
    (enough : 16 * ts.length + 6 ≤ fuel) :
    Reader.expressionThen fuel kind ts = some (e, rest) := by
  obtain ⟨value, closing⟩ := ended
  have whole := expression_of_read value.read_of (by rw [kindAt, closing]; exact separates.loose)
    (by rw [kindAt, closing]; exact separates.plain) enough
  simp only [Reader.expressionThen, whole, Option.bind_eq_bind, Option.bind_some, Reader.expect,
    if_pos closing]

theorem Ended.shorter {e : Expression} (ended : Ended kind ts e rest) :
    rest.length + 1 < ts.length := by
  obtain ⟨value, -⟩ := ended
  exact value.shorter

theorem Ended.begins {e : Expression} (ended : Ended kind ts e rest) :
    beginsExpression (kindAt ts) = true := by
  obtain ⟨value, -⟩ := ended
  exact value.begins

theorem ne_of_begins {kind other : Kind} (begins : beginsExpression other = true)
    (separates : beginsExpression kind = false) : (other == kind) = false := by
  refine beq_false_of_ne ?_
  rintro rfl
  rw [begins] at separates
  exact absurd separates (by decide)

theorem clause_of_read {value : Option Expression}
    (read : Reader.clause fuel kind ts = some (value, rest)) (notEnd : kind ≠ .eof) :
    Clause kind ts value rest := by
  rw [Reader.clause] at read
  split at read
  · rename_i here
    cases read
    cases ts with
    | nil => exact absurd (eq_of_beq here).symm notEnd
    | cons u us => exact .missing (eq_of_beq here)
  · simp only [Option.bind_eq_bind] at read
    obtain ⟨⟨e, us⟩, found, read⟩ := Option.bind_eq_some_iff.mp read
    cases read
    exact .present (ended_of_read found)

theorem Clause.read {value : Option Expression} (clause : Clause kind ts value rest)
    (separates : Separates kind) (enough : 16 * ts.length + 6 ≤ fuel) :
    Reader.clause fuel kind ts = some (value, rest) := by
  cases clause with
  | missing closing =>
      rw [Reader.clause, kindAt, closing, beq_self_eq_true, if_pos rfl]
      rfl
  | present value =>
      rw [Reader.clause, ne_of_begins value.begins separates.other, value.read separates enough]
      rfl

theorem Clause.shorter {value : Option Expression} (clause : Clause kind ts value rest) :
    rest.length < ts.length := by
  cases clause with
  | missing => exact Nat.lt_succ_self _
  | present value => exact Nat.lt_of_succ_lt value.shorter

theorem identifier_eq {name : String} (read : Reader.identifier ts = some (name, rest)) :
    ∃ t, ts = t :: rest ∧ t.kind = .identifier ∧ t.lexeme = name := by
  cases ts with
  | nil => exact absurd read nofun
  | cons t us =>
      rw [Reader.identifier] at read
      split at read
      · rename_i kind
        cases read
        exact ⟨t, rfl, kind, rfl⟩
      · exact absurd read nofun

theorem variable_of_read {name : String} {value : Option Expression}
    (read : Reader.variableRest fuel ts = some (name, value, rest)) :
    Variable ts name value rest := by
  simp only [Reader.variableRest, Option.bind_eq_bind] at read
  obtain ⟨⟨x, us⟩, named, read⟩ := Option.bind_eq_some_iff.mp read
  obtain ⟨t, rfl, kind, rfl⟩ := identifier_eq named
  dsimp only at read
  split at read
  · rename_i equal
    obtain ⟨⟨e, vs⟩, found, read⟩ := Option.bind_eq_some_iff.mp read
    cases read
    cases us with
    | nil => exact absurd equal (by decide)
    | cons u us => exact .initialized kind (eq_of_beq equal) (ended_of_read found)
  · obtain ⟨vs, passed, read⟩ := Option.bind_eq_some_iff.mp read
    cases read
    obtain ⟨u, rfl, closing⟩ := expect_eq passed
    exact .plain kind closing

theorem Variable.read {name : String} {value : Option Expression}
    (declared : Variable ts name value rest) (enough : 16 * ts.length + 6 ≤ fuel) :
    Reader.variableRest fuel ts = some (name, value, rest) := by
  cases declared with
  | plain kind closing =>
      simp only [Reader.variableRest, Reader.identifier, if_pos kind, Option.bind_eq_bind,
        Option.bind_some, kindAt, closing, Reader.expect]
      rfl
  | initialized kind equal value =>
      simp only [List.length_cons] at enough
      have found := value.read separates_semicolon (show 16 * _ + 6 ≤ fuel by omega)
      simp only [Reader.variableRest, Reader.identifier, if_pos kind, Option.bind_eq_bind,
        Option.bind_some, kindAt, equal, List.drop_one, List.tail_cons, found]
      rfl

theorem Variable.shorter {name : String} {value : Option Expression}
    (declared : Variable ts name value rest) : rest.length < ts.length := by
  cases declared with
  | plain => simp only [List.length_cons]; omega
  | initialized _ _ value =>
      have := value.shorter
      simp only [List.length_cons]
      omega

theorem opening_of_read {first : Initializer}
    (read : Reader.initializer fuel ts = some (first, rest)) : Opening ts first rest := by
  rw [Reader.initializer] at read
  split at read
  · rename_i here
    cases read
    cases ts with
    | nil => exact absurd here (by decide)
    | cons u us => exact .missing (eq_of_beq here)
  · split at read
    · rename_i keyword
      simp only [Option.bind_eq_bind] at read
      obtain ⟨⟨name, value, us⟩, found, read⟩ := Option.bind_eq_some_iff.mp read
      cases read
      cases ts with
      | nil => exact absurd keyword (by decide)
      | cons t us => exact .var (eq_of_beq keyword) (variable_of_read found)
    · simp only [Option.bind_eq_bind] at read
      obtain ⟨⟨e, us⟩, found, read⟩ := Option.bind_eq_some_iff.mp read
      cases read
      exact .expression (ended_of_read found)

theorem Opening.read {first : Initializer} (opening : Opening ts first rest)
    (enough : 16 * ts.length + 6 ≤ fuel) :
    Reader.initializer fuel ts = some (first, rest) := by
  cases opening with
  | missing closing =>
      rw [Reader.initializer, kindAt, closing]
      rfl
  | var keyword declared =>
      simp only [List.length_cons] at enough
      have found := declared.read (show 16 * _ + 6 ≤ fuel by omega)
      simp only [Reader.initializer, kindAt, keyword, List.drop_one, List.tail_cons, found,
        Option.bind_eq_bind, Option.bind_some]
      rfl
  | expression value =>
      rw [Reader.initializer, ne_of_begins value.begins rfl, ne_of_begins value.begins rfl,
        value.read separates_semicolon enough]
      rfl

theorem Opening.shorter {first : Initializer} (opening : Opening ts first rest) :
    rest.length < ts.length := by
  cases opening with
  | missing => exact Nat.lt_succ_self _
  | var _ declared => exact Nat.lt_succ_of_lt declared.shorter
  | expression value => exact Nat.lt_of_succ_lt value.shorter

theorem names_of_read {names : List String}
    (read : Reader.parameters fuel ts = some (names, rest)) : Names ts names rest := by
  induction fuel generalizing ts names with
  | zero => exact absurd read nofun
  | succ fuel ih =>
      simp only [Reader.parameters, Option.bind_eq_bind] at read
      obtain ⟨⟨x, us⟩, named, read⟩ := Option.bind_eq_some_iff.mp read
      obtain ⟨t, rfl, kind, rfl⟩ := identifier_eq named
      dsimp only at read
      split at read
      · rename_i comma
        obtain ⟨⟨others, vs⟩, listed, read⟩ := Option.bind_eq_some_iff.mp read
        cases read
        cases us with
        | nil => exact absurd comma (by decide)
        | cons u us => exact .more kind (eq_of_beq comma) (ih listed)
      · cases read
        exact .one kind

theorem Names.read {names : List String} (listed : Names ts names rest)
    (closing : kindAt rest = .rightParen) (enough : ts.length ≤ fuel) :
    Reader.parameters fuel ts = some (names, rest) := by
  induction listed generalizing fuel with
  | one kind =>
      simp only [List.length_cons] at enough
      obtain ⟨fuel, rfl⟩ : ∃ k, fuel = k + 1 := ⟨fuel - 1, by omega⟩
      simp only [Reader.parameters, Reader.identifier, if_pos kind, Option.bind_eq_bind,
        Option.bind_some, closing]
      rfl
  | more kind comma others ih =>
      simp only [List.length_cons] at enough
      obtain ⟨fuel, rfl⟩ : ∃ k, fuel = k + 1 := ⟨fuel - 1, by omega⟩
      simp only [Reader.parameters, Reader.identifier, if_pos kind, Option.bind_eq_bind,
        Option.bind_some, kindAt, comma, List.drop_one, List.tail_cons,
        ih closing (show _ ≤ fuel by omega)]
      rfl

theorem Names.shorter {names : List String} (listed : Names ts names rest) :
    rest.length < ts.length := by
  induction listed with
  | one => exact Nat.lt_succ_self _
  | more _ _ _ ih =>
      simp only [List.length_cons]
      omega

theorem Names.begins {names : List String} (listed : Names ts names rest) :
    kindAt ts = .identifier := by
  cases listed with
  | one kind | more kind => exact kind

theorem parameters_of_read {names : List String}
    (read : Reader.parameterList fuel ts = some (names, rest)) : Parameters ts names rest := by
  simp only [Reader.parameterList, Option.bind_eq_bind] at read
  obtain ⟨us, opened, inner⟩ := Option.bind_eq_some_iff.mp read
  obtain ⟨t, rfl, opening⟩ := expect_eq opened
  split at inner
  · rw [Option.bind_some] at inner
    obtain ⟨vs, closed, inner⟩ := Option.bind_eq_some_iff.mp inner
    cases inner
    obtain ⟨u, rfl, closing⟩ := expect_eq closed
    exact .empty opening closing
  · obtain ⟨⟨xs, vs⟩, listed, inner⟩ := Option.bind_eq_some_iff.mp inner
    obtain ⟨ws, closed, inner⟩ := Option.bind_eq_some_iff.mp inner
    cases inner
    obtain ⟨u, rfl, closing⟩ := expect_eq closed
    exact .full opening (names_of_read listed) closing

theorem Parameters.read {names : List String} (listed : Parameters ts names rest)
    (enough : ts.length ≤ fuel) : Reader.parameterList fuel ts = some (names, rest) := by
  cases listed with
  | empty opening closing =>
      simp only [Reader.parameterList, Reader.expect, if_pos opening, Option.bind_eq_bind,
        Option.bind_some, kindAt, closing]
      rfl
  | full opening listed closing =>
      simp only [List.length_cons] at enough
      have found := listed.read closing (show _ ≤ fuel by omega)
      simp only [Reader.parameterList, Reader.expect, if_pos opening, Option.bind_eq_bind,
        Option.bind_some, listed.begins, found, if_pos closing]
      rfl

theorem Parameters.shorter {names : List String} (listed : Parameters ts names rest) :
    rest.length + 1 < ts.length := by
  cases listed with
  | empty => simp
  | full _ listed _ =>
      have := listed.shorter
      simp only [List.length_cons] at this ⊢
      omega

end Clauses

/-! Only units of the grammar are read -/

structure StatementRead (n m : Nat) (ts : List Token) (s : Statement) (rest : List Token) : Prop where
  derives : Derives (.statement n m) ts s rest
  nearest : s.Nearest
  present : s.isEmpty = false
  closed : kindAt rest = .else → s.dangles = false

/-- Reading with some fuel finds nothing but what can be derived, with every `else` at the nearest
`if`. -/
structure UnitsRead (fuel : Nat) : Prop where
  declaration : ∀ {n m : Nat} {ts rest : List Token} {d : Declaration},
    Reader.declaration fuel n ts = some (d, m, rest) →
    Derives (.declaration n m) ts d rest ∧ d.Nearest
  functionRest : ∀ {n m : Nat} {ts rest : List Token} {f : Function},
    Reader.functionRest fuel n ts = some (f, m, rest) → Derives (.function n m) ts f rest ∧ f.Nearest
  functionTail : ∀ {n m : Nat} {t : Token} {ts rest : List Token} {f : Function},
    t.kind = .identifier → Reader.functionTail fuel t.lexeme n ts = some (f, m, rest) →
    Derives (.function n m) (t :: ts) f rest ∧ f.Nearest
  block : ∀ {n m : Nat} {ts rest : List Token} {body : List Declaration},
    Reader.block fuel n ts = some (body, m, rest) →
    ∃ u, Derives (.declarations n m) ts body (u :: rest) ∧ u.kind = .rightBrace ∧ NearestAll body
  statement : ∀ {n m : Nat} {ts rest : List Token} {s : Statement},
    Reader.statement fuel n ts = some (s, m, rest) → StatementRead n m ts s rest
  ifRest : ∀ {n m : Nat} {t : Token} {ts rest : List Token} {s : Statement}, t.kind = .if →
    Reader.ifRest fuel n ts = some (s, m, rest) → StatementRead n m (t :: ts) s rest
  whileRest : ∀ {n m : Nat} {t : Token} {ts rest : List Token} {s : Statement}, t.kind = .while →
    Reader.whileRest fuel n ts = some (s, m, rest) → StatementRead n m (t :: ts) s rest
  forRest : ∀ {n m : Nat} {t : Token} {ts rest : List Token} {s : Statement}, t.kind = .for →
    Reader.forRest fuel n ts = some (s, m, rest) → StatementRead n m (t :: ts) s rest

theorem drop_one {kind : Kind} {ts : List Token} (here : kindAt ts = kind) (more : kind ≠ .eof) :
    ∃ t, ts = t :: ts.drop 1 ∧ t.kind = kind := by
  cases ts with
  | nil => exact absurd here.symm more
  | cons t us => exact ⟨t, rfl, here⟩

namespace UnitsRead

variable {fuel : Nat} (ih : UnitsRead fuel) {n m : Nat} {ts rest : List Token}

include ih

theorem declaration_succ {d : Declaration}
    (read : Reader.declaration (fuel + 1) n ts = some (d, m, rest)) :
    Derives (.declaration n m) ts d rest ∧ d.Nearest := by
  rw [Reader.declaration] at read
  split at read
  · rename_i keyword
    obtain ⟨t, whole, kind⟩ := drop_one (eq_of_beq keyword) (by decide)
    simp only [Option.bind_eq_bind] at read
    obtain ⟨⟨f, k, us⟩, found, read⟩ := Option.bind_eq_some_iff.mp read
    cases read
    obtain ⟨derives, nearest⟩ := ih.functionRest found
    rw [whole]
    exact ⟨.fn kind derives, nearest⟩
  · split at read
    · rename_i keyword
      obtain ⟨t, whole, kind⟩ := drop_one (eq_of_beq keyword) (by decide)
      simp only [Option.bind_eq_bind] at read
      obtain ⟨⟨name, value, us⟩, found, read⟩ := Option.bind_eq_some_iff.mp read
      cases read
      rw [whole]
      exact ⟨.var kind (variable_of_read found), trivial⟩
    · simp only [Option.bind_eq_bind] at read
      obtain ⟨⟨s, k, us⟩, found, read⟩ := Option.bind_eq_some_iff.mp read
      cases read
      have statement := ih.statement found
      exact ⟨.statement statement.derives, statement.nearest⟩

theorem functionTail_succ {t : Token} {f : Function} (name : t.kind = .identifier)
    (read : Reader.functionTail (fuel + 1) t.lexeme n ts = some (f, m, rest)) :
    Derives (.function n m) (t :: ts) f rest ∧ f.Nearest := by
  simp only [Reader.functionTail, Option.bind_eq_bind] at read
  obtain ⟨⟨names, us⟩, listed, read⟩ := Option.bind_eq_some_iff.mp read
  have parameters := parameters_of_read listed
  dsimp only at read
  split at read
  · rename_i equal
    obtain ⟨u, whole, kind⟩ := drop_one (eq_of_beq equal) (by decide)
    obtain ⟨⟨e, vs⟩, found, read⟩ := Option.bind_eq_some_iff.mp read
    cases read
    rw [whole] at parameters
    exact ⟨.short name parameters kind (ended_of_read found), trivial⟩
  · obtain ⟨vs, opened, read⟩ := Option.bind_eq_some_iff.mp read
    obtain ⟨⟨body, k, ws⟩, found, read⟩ := Option.bind_eq_some_iff.mp read
    cases read
    obtain ⟨u, rfl, opening⟩ := expect_eq opened
    obtain ⟨v, derives, closing, nearest⟩ := ih.block found
    exact ⟨.long name parameters opening derives closing, nearest⟩

theorem block_succ {body : List Declaration}
    (read : Reader.block (fuel + 1) n ts = some (body, m, rest)) :
    ∃ u, Derives (.declarations n m) ts body (u :: rest) ∧ u.kind = .rightBrace ∧
      NearestAll body := by
  rw [Reader.block] at read
  split at read
  · rename_i closing
    obtain ⟨u, whole, kind⟩ := drop_one (eq_of_beq closing) (by decide)
    cases read
    exact ⟨u, by rw [← whole]; exact .nil, kind, trivial⟩
  · split at read
    · cases read
    · simp only [Option.bind_eq_bind] at read
      obtain ⟨⟨d, k, us⟩, first, read⟩ := Option.bind_eq_some_iff.mp read
      obtain ⟨⟨others, l, vs⟩, found, read⟩ := Option.bind_eq_some_iff.mp read
      cases read
      obtain ⟨derives, nearest⟩ := ih.declaration first
      obtain ⟨u, inner, closing, all⟩ := ih.block found
      exact ⟨u, .cons derives inner, closing, nearest, all⟩

theorem ifRest_succ {t : Token} {s : Statement} (keyword : t.kind = .if)
    (read : Reader.ifRest (fuel + 1) n ts = some (s, m, rest)) :
    StatementRead n m (t :: ts) s rest := by
  simp only [Reader.ifRest, Option.bind_eq_bind] at read
  obtain ⟨⟨c, us⟩, condition, read⟩ := Option.bind_eq_some_iff.mp read
  obtain ⟨⟨first, k, vs⟩, found, read⟩ := Option.bind_eq_some_iff.mp read
  have test := ended_of_read condition
  have consequent := ih.statement found
  dsimp only at read
  split at read
  · rename_i otherwise
    obtain ⟨u, whole, kind⟩ := drop_one (eq_of_beq otherwise) (by decide)
    obtain ⟨ws, passed, read⟩ := Option.bind_eq_some_iff.mp read
    obtain ⟨v, tail, colon⟩ := expect_eq passed
    rw [tail] at whole
    obtain ⟨⟨second, l, xs⟩, last, read⟩ := Option.bind_eq_some_iff.mp read
    cases read
    have alternative := ih.statement last
    have derives := consequent.derives
    rw [whole] at derives
    exact {
      derives := .ifElse keyword test derives kind colon alternative.derives
      nearest := ⟨consequent.nearest, alternative.nearest,
        fun _ => consequent.closed (eq_of_beq otherwise)⟩
      present := rfl
      closed := fun more => by
        rw [Statement.dangles, alternative.present, alternative.closed more]
        rfl }
  · rename_i none
    cases read
    exact {
      derives := .ifOnly keyword test consequent.derives
      nearest := ⟨consequent.nearest, trivial, fun present => absurd present (by decide)⟩
      present := rfl
      closed := fun more => absurd (beq_iff_eq.mpr more) none }

theorem whileRest_succ {t : Token} {s : Statement} (keyword : t.kind = .while)
    (read : Reader.whileRest (fuel + 1) n ts = some (s, m, rest)) :
    StatementRead n m (t :: ts) s rest := by
  simp only [Reader.whileRest, Option.bind_eq_bind] at read
  obtain ⟨⟨c, us⟩, condition, read⟩ := Option.bind_eq_some_iff.mp read
  obtain ⟨⟨body, k, vs⟩, found, read⟩ := Option.bind_eq_some_iff.mp read
  cases read
  have inner := ih.statement found
  exact ⟨.while keyword (ended_of_read condition) inner.derives, inner.nearest, rfl, inner.closed⟩

theorem forRest_succ {t : Token} {s : Statement} (keyword : t.kind = .for)
    (read : Reader.forRest (fuel + 1) n ts = some (s, m, rest)) :
    StatementRead n m (t :: ts) s rest := by
  simp only [Reader.forRest, Option.bind_eq_bind] at read
  obtain ⟨⟨first, us⟩, opening, read⟩ := Option.bind_eq_some_iff.mp read
  obtain ⟨⟨condition, vs⟩, tests, read⟩ := Option.bind_eq_some_iff.mp read
  obtain ⟨⟨step, ws⟩, steps, read⟩ := Option.bind_eq_some_iff.mp read
  obtain ⟨⟨body, k, xs⟩, found, read⟩ := Option.bind_eq_some_iff.mp read
  cases read
  have inner := ih.statement found
  refine ⟨.for keyword (opening_of_read opening) (clause_of_read tests (by decide))
    (clause_of_read steps (by decide)) inner.derives, inner.nearest, rfl, inner.closed⟩

theorem statement_succ {s : Statement}
    (read : Reader.statement (fuel + 1) n ts = some (s, m, rest)) : StatementRead n m ts s rest := by
  rw [Reader.statement] at read
  split at read
  · rename_i keyword
    obtain ⟨t, whole, kind⟩ := drop_one keyword (by decide)
    simp only [Option.bind_eq_bind] at read
    obtain ⟨⟨e, us⟩, found, read⟩ := Option.bind_eq_some_iff.mp read
    cases read
    rw [whole]
    exact ⟨.print kind (ended_of_read found), trivial, rfl, fun _ => rfl⟩
  · rename_i keyword
    obtain ⟨t, whole, kind⟩ := drop_one keyword (by decide)
    rw [whole]
    exact ih.ifRest kind read
  · rename_i keyword
    obtain ⟨t, whole, kind⟩ := drop_one keyword (by decide)
    rw [whole]
    exact ih.whileRest kind read
  · rename_i keyword
    obtain ⟨t, whole, kind⟩ := drop_one keyword (by decide)
    rw [whole]
    exact ih.forRest kind read
  · rename_i keyword
    obtain ⟨t, whole, kind⟩ := drop_one keyword (by decide)
    simp only [Option.bind_eq_bind] at read
    obtain ⟨us, passed, read⟩ := Option.bind_eq_some_iff.mp read
    cases read
    obtain ⟨u, tail, closing⟩ := expect_eq passed
    rw [whole, tail]
    exact ⟨.break kind closing, trivial, rfl, fun _ => rfl⟩
  · rename_i keyword
    obtain ⟨t, whole, kind⟩ := drop_one keyword (by decide)
    simp only [Option.bind_eq_bind] at read
    obtain ⟨us, passed, read⟩ := Option.bind_eq_some_iff.mp read
    cases read
    obtain ⟨u, tail, closing⟩ := expect_eq passed
    rw [whole, tail]
    exact ⟨.continue kind closing, trivial, rfl, fun _ => rfl⟩
  · rename_i keyword
    obtain ⟨t, whole, kind⟩ := drop_one keyword (by decide)
    simp only [Option.bind_eq_bind] at read
    obtain ⟨⟨value, us⟩, found, read⟩ := Option.bind_eq_some_iff.mp read
    cases read
    rw [whole]
    exact ⟨.return kind (clause_of_read found (by decide)), trivial, rfl, fun _ => rfl⟩
  · rename_i keyword
    obtain ⟨t, whole, kind⟩ := drop_one keyword (by decide)
    simp only [Option.bind_eq_bind] at read
    obtain ⟨⟨body, k, us⟩, found, read⟩ := Option.bind_eq_some_iff.mp read
    cases read
    obtain ⟨u, derives, closing, nearest⟩ := ih.block found
    rw [whole]
    exact ⟨.block kind derives closing, nearest, rfl, fun _ => rfl⟩
  · simp only [Option.bind_eq_bind] at read
    obtain ⟨⟨e, us⟩, found, read⟩ := Option.bind_eq_some_iff.mp read
    cases read
    exact ⟨.expression (ended_of_read found), trivial, rfl, fun _ => rfl⟩

end UnitsRead

theorem unitsRead (fuel : Nat) : UnitsRead fuel := by
  induction fuel with
  | zero =>
      exact {
        declaration := fun read => absurd read (by simp [Reader.declaration])
        functionRest := fun read => absurd read (by simp [Reader.functionRest])
        functionTail := fun _ read => absurd read (by simp [Reader.functionTail])
        block := fun read => absurd read (by simp [Reader.block])
        statement := fun read => absurd read (by simp [Reader.statement])
        ifRest := fun _ read => absurd read (by simp [Reader.ifRest])
        whileRest := fun _ read => absurd read (by simp [Reader.whileRest])
        forRest := fun _ read => absurd read (by simp [Reader.forRest]) }
  | succ fuel ih =>
      exact {
        declaration := ih.declaration_succ
        functionRest := fun read => by
          simp only [Reader.functionRest, Option.bind_eq_bind] at read
          obtain ⟨⟨name, us⟩, named, read⟩ := Option.bind_eq_some_iff.mp read
          obtain ⟨t, rfl, kind, rfl⟩ := identifier_eq named
          exact ih.functionTail kind read
        functionTail := ih.functionTail_succ
        block := ih.block_succ
        statement := ih.statement_succ
        ifRest := ih.ifRest_succ
        whileRest := ih.whileRest_succ
        forRest := ih.forRest_succ }

/-! Everything that can be derived is read -/

def opensStatement : Kind → Bool
  | .print | .if | .while | .for | .break | .continue | .return | .leftBrace => true
  | kind => beginsExpression kind

def opensDeclaration (kind : Kind) : Bool := opensStatement kind || kind == .var || kind == .fn

theorem opensStatement_of_begins {kind : Kind} (begins : beginsExpression kind = true) :
    opensStatement kind = true := by
  cases kind <;> first
    | rfl
    | exact begins

namespace Derives

variable {category : Category} {ts rest : List Token} {tree : category.Tree}

def Opens : (category : Category) → List Token → List Token → Prop
  | .statement _ _, ts, _ => opensStatement (kindAt ts) = true
  | .declaration _ _, ts, _ => opensDeclaration (kindAt ts) = true
  | .declarations _ _, ts, rest => ts = rest ∨ opensDeclaration (kindAt ts) = true
  | .function _ _, _, _ => True

theorem opens (derives : Derives category ts tree rest) : Opens category ts rest := by
  induction derives with
  | print kind | ifOnly kind | ifElse kind | «while» kind | «for» kind | «break» kind
  | «continue» kind | «return» kind | block kind | var kind | fn kind =>
      simp only [Opens, kindAt, kind]
      rfl
  | expression value => exact opensStatement_of_begins value.begins
  | statement _ ih =>
      have opened : opensStatement _ = true := ih
      simp only [Opens, opensDeclaration, opened, Bool.true_or]
  | nil => exact .inl rfl
  | cons _ _ first _ => exact .inr first
  | short | long => trivial

def Shorter : (category : Category) → List Token → List Token → Prop
  | .declarations _ _, ts, rest => rest.length ≤ ts.length
  | _, ts, rest => rest.length < ts.length

theorem shorter (derives : Derives category ts tree rest) : Shorter category ts rest := by
  induction derives with
  | print _ value | var _ value | «return» _ value =>
      have := value.shorter
      simp only [Shorter, List.length_cons]
      omega
  | expression value => exact Nat.lt_of_succ_lt value.shorter
  | ifOnly _ condition _ ih | «while» _ condition _ ih =>
      have := condition.shorter
      simp only [Shorter, List.length_cons] at ih ⊢
      omega
  | ifElse _ condition _ _ _ _ first second =>
      have := condition.shorter
      simp only [Shorter, List.length_cons] at first second ⊢
      omega
  | «for» _ opening tests steps _ ih =>
      have first := opening.shorter
      have second := tests.shorter
      have third := steps.shorter
      simp only [Shorter, List.length_cons] at ih ⊢
      omega
  | «break» | «continue» =>
      simp only [Shorter, List.length_cons]
      omega
  | block _ _ _ ih | fn _ _ ih =>
      simp only [Shorter, List.length_cons] at ih ⊢
      omega
  | statement _ ih => exact ih
  | short _ parameters _ value =>
      have first := parameters.shorter
      have second := value.shorter
      simp only [Shorter, List.length_cons] at first ⊢
      omega
  | long _ parameters _ _ _ ih =>
      have first := parameters.shorter
      simp only [Shorter, List.length_cons] at first ih ⊢
      omega
  | nil => exact Nat.le_refl _
  | cons _ _ first others =>
      simp only [Shorter] at first others ⊢
      omega

/-- What reading comes to, with fuel in proportion to the tokens. An `else` must not follow where it
would be taken. -/
def Found : (category : Category) → List Token → category.Tree → List Token → Prop
  | .statement n m, ts, s, rest => s.Nearest → (s.dangles = true → kindAt rest ≠ .else) →
    ∀ fuel, 16 * ts.length + 8 ≤ fuel → Reader.statement fuel n ts = some (s, m, rest)
  | .declaration n m, ts, d, rest => d.Nearest → kindAt rest ≠ .else →
    ∀ fuel, 16 * ts.length + 9 ≤ fuel → Reader.declaration fuel n ts = some (d, m, rest)
  | .declarations n m, ts, body, rest => NearestAll body →
    (kindAt rest = .rightBrace → ∀ fuel, 16 * ts.length + 10 ≤ fuel →
      Reader.block fuel n ts = some (body, m, rest.drop 1)) ∧
    (kindAt rest = .eof → ∀ fuel, 16 * ts.length + 10 ≤ fuel →
      Reader.declarations fuel n ts = some body)
  | .function n m, ts, f, rest => f.Nearest →
    ∀ fuel, 16 * ts.length + 8 ≤ fuel → Reader.functionRest fuel n ts = some (f, m, rest)

theorem present {n m : Nat} {s : Statement} (derives : Derives (.statement n m) ts s rest) :
    s.isEmpty = false := by
  cases derives <;> rfl

theorem not_else {n m : Nat} {body : List Declaration}
    (derives : Derives (.declarations n m) ts body rest) (other : kindAt rest ≠ .else) :
    kindAt ts ≠ .else := by
  rcases derives.opens with same | opened
  · rw [same]
    exact other
  · intro isElse
    rw [isElse] at opened
    exact absurd opened (by decide)

theorem statement_expression {kind : Kind} (begins : beginsExpression kind = true) :
    opensStatement kind = true ∧ kind ≠ .print ∧ kind ≠ .if ∧ kind ≠ .while ∧ kind ≠ .for ∧
      kind ≠ .break ∧ kind ≠ .continue ∧ kind ≠ .return ∧ kind ≠ .leftBrace := by
  cases kind <;> first
    | exact absurd begins (by decide)
    | decide

theorem read_expression {e : Expression} {n fuel : Nat} (value : Ended .semicolon ts e rest)
    (enough : 16 * ts.length + 6 ≤ fuel) :
    Reader.statement (fuel + 1) n ts = some (.expression e, n, rest) := by
  have found := value.read separates_semicolon enough
  obtain ⟨-, notPrint, notIf, notWhile, notFor, notBreak, notContinue, notReturn, notBrace⟩ :=
    statement_expression value.begins
  rw [Reader.statement]
  split <;> first
    | contradiction
    | simp only [found, Option.bind_eq_bind, Option.bind_some]

theorem read_ifOnly {c : Expression} {s : Statement} {us : List Token} {n m fuel : Nat}
    (condition : Ended .colon ts c us) (read : Reader.statement fuel n us = some (s, m, rest))
    (other : kindAt rest ≠ .else) (enough : 16 * ts.length + 6 ≤ fuel) :
    Reader.ifRest (fuel + 1) n ts = some (.ifElse c s .empty, m, rest) := by
  have test := condition.read separates_colon enough
  simp only [Reader.ifRest, test, read, Option.bind_eq_bind, Option.bind_some]
  rw [if_neg (by simpa using other)]

theorem read_ifElse {c : Expression} {s a : Statement} {us vs : List Token} {u v : Token}
    {n m k fuel : Nat} (condition : Ended .colon ts c us)
    (first : Reader.statement fuel n us = some (s, m, u :: v :: vs)) (otherwise : u.kind = .else)
    (colon : v.kind = .colon) (second : Reader.statement fuel m vs = some (a, k, rest))
    (enough : 16 * ts.length + 6 ≤ fuel) :
    Reader.ifRest (fuel + 1) n ts = some (.ifElse c s a, k, rest) := by
  have test := condition.read separates_colon enough
  simp only [Reader.ifRest, test, first, Option.bind_eq_bind, Option.bind_some, kindAt, otherwise,
    List.drop_one, List.tail_cons, Reader.expect, if_pos colon, second]
  rfl

theorem found (derives : Derives category ts tree rest) : Found category ts tree rest := by
  induction derives with
  | print kind value =>
      intro _ _ fuel enough
      rw [List.length_cons] at enough
      obtain ⟨fuel, rfl⟩ : ∃ k, fuel = k + 1 := ⟨fuel - 1, by omega⟩
      have read := value.read separates_semicolon (show 16 * _ + 6 ≤ fuel by omega)
      simp only [Reader.statement, kindAt, kind, List.drop_one, List.tail_cons, read,
        Option.bind_eq_bind, Option.bind_some]
  | expression value =>
      intro _ _ fuel enough
      obtain ⟨fuel, rfl⟩ : ∃ k, fuel = k + 1 := ⟨fuel - 1, by omega⟩
      exact read_expression value (by omega)
  | ifOnly kind condition _ ih =>
      intro nearest closed fuel enough
      rw [List.length_cons] at enough
      have shorter := condition.shorter
      obtain ⟨fuel, rfl⟩ : ∃ k, fuel = k + 2 := ⟨fuel - 2, by omega⟩
      have other := closed rfl
      simp only [Reader.statement, kindAt, kind, List.drop_one, List.tail_cons]
      exact read_ifOnly condition (ih nearest.1 (fun _ => other) fuel (by omega)) other (by omega)
  | ifElse kind condition consequent otherwise colon inner first second =>
      intro nearest closed fuel enough
      rw [List.length_cons] at enough
      have shorter := condition.shorter
      have middle := consequent.shorter
      simp only [Shorter, List.length_cons] at middle
      obtain ⟨fuel, rfl⟩ : ∃ k, fuel = k + 2 := ⟨fuel - 2, by omega⟩
      -- The consequent cannot take this `else`, since every `else` belongs to the nearest `if`.
      have complete := nearest.2.2 inner.present
      simp only [Reader.statement, kindAt, kind, List.drop_one, List.tail_cons]
      refine read_ifElse condition (first nearest.1 ?_ fuel (by omega)) otherwise colon
        (second nearest.2.1 ?_ fuel (by omega)) (by omega)
      · intro dangles
        rw [complete] at dangles
        exact absurd dangles (by decide)
      · intro dangles
        refine closed ?_
        rw [Statement.dangles, dangles, Bool.or_true]
  | «while» kind condition _ ih =>
      intro nearest closed fuel enough
      rw [List.length_cons] at enough
      have shorter := condition.shorter
      obtain ⟨fuel, rfl⟩ : ∃ k, fuel = k + 2 := ⟨fuel - 2, by omega⟩
      have test := condition.read separates_colon (show 16 * _ + 6 ≤ fuel by omega)
      have body := ih nearest closed fuel (by omega)
      simp only [Reader.statement, kindAt, kind, List.drop_one, List.tail_cons, Reader.whileRest, test,
        body, Option.bind_eq_bind, Option.bind_some]
  | «for» kind opening tests steps _ ih =>
      intro nearest closed fuel enough
      rw [List.length_cons] at enough
      have first := opening.shorter
      have second := tests.shorter
      have third := steps.shorter
      obtain ⟨fuel, rfl⟩ : ∃ k, fuel = k + 2 := ⟨fuel - 2, by omega⟩
      have start := opening.read (show 16 * _ + 6 ≤ fuel by omega)
      have test := tests.read separates_semicolon (show 16 * _ + 6 ≤ fuel by omega)
      have step := steps.read separates_colon (show 16 * _ + 6 ≤ fuel by omega)
      have body := ih nearest closed fuel (by omega)
      simp only [Reader.statement, kindAt, kind, List.drop_one, List.tail_cons, Reader.forRest, start,
        test, step, body, Option.bind_eq_bind, Option.bind_some]
  | «break» kind closing =>
      intro _ _ fuel enough
      simp only [List.length_cons] at enough
      obtain ⟨fuel, rfl⟩ : ∃ k, fuel = k + 1 := ⟨fuel - 1, by omega⟩
      simp only [Reader.statement, kindAt, kind, List.drop_one, List.tail_cons, Reader.expect,
        if_pos closing, Option.bind_eq_bind, Option.bind_some]
  | «continue» kind closing =>
      intro _ _ fuel enough
      simp only [List.length_cons] at enough
      obtain ⟨fuel, rfl⟩ : ∃ k, fuel = k + 1 := ⟨fuel - 1, by omega⟩
      simp only [Reader.statement, kindAt, kind, List.drop_one, List.tail_cons, Reader.expect,
        if_pos closing, Option.bind_eq_bind, Option.bind_some]
  | «return» kind result =>
      intro _ _ fuel enough
      rw [List.length_cons] at enough
      obtain ⟨fuel, rfl⟩ : ∃ k, fuel = k + 1 := ⟨fuel - 1, by omega⟩
      have read := result.read separates_semicolon (show 16 * _ + 6 ≤ fuel by omega)
      simp only [Reader.statement, kindAt, kind, List.drop_one, List.tail_cons, read,
        Option.bind_eq_bind, Option.bind_some]
  | block kind inner closing ih =>
      intro nearest _ fuel enough
      rw [List.length_cons] at enough
      obtain ⟨fuel, rfl⟩ : ∃ k, fuel = k + 1 := ⟨fuel - 1, by omega⟩
      have body := (ih nearest).1 closing fuel (by omega)
      simp only [Reader.statement, kindAt, kind, List.drop_one, List.tail_cons, body,
        Option.bind_eq_bind, Option.bind_some]
  | statement inner ih =>
      intro nearest other fuel enough
      obtain ⟨fuel, rfl⟩ : ∃ k, fuel = k + 1 := ⟨fuel - 1, by omega⟩
      have read := ih nearest (fun _ => other) fuel (by omega)
      have opens : opensStatement _ = true := inner.opens
      rw [Reader.declaration, if_neg, if_neg, read]
      · rfl
      · intro isVar
        rw [eq_of_beq isVar] at opens
        exact absurd opens (by decide)
      · intro isFn
        rw [eq_of_beq isFn] at opens
        exact absurd opens (by decide)
  | var kind declared =>
      intro _ _ fuel enough
      rw [List.length_cons] at enough
      obtain ⟨fuel, rfl⟩ : ∃ k, fuel = k + 1 := ⟨fuel - 1, by omega⟩
      have read := declared.read (show 16 * _ + 6 ≤ fuel by omega)
      simp only [Reader.declaration, kindAt, kind, List.drop_one, List.tail_cons, read,
        Option.bind_eq_bind, Option.bind_some]
      rfl
  | fn kind declared ih =>
      intro nearest _ fuel enough
      rw [List.length_cons] at enough
      obtain ⟨fuel, rfl⟩ : ∃ k, fuel = k + 1 := ⟨fuel - 1, by omega⟩
      have read := ih nearest fuel (by omega)
      simp only [Reader.declaration, kindAt, kind, List.drop_one, List.tail_cons, read,
        Option.bind_eq_bind, Option.bind_some]
      rfl
  | short name parameters equal value =>
      intro _ fuel enough
      have shorter := parameters.shorter
      simp only [List.length_cons] at enough shorter
      obtain ⟨fuel, rfl⟩ : ∃ k, fuel = k + 2 := ⟨fuel - 2, by omega⟩
      have listed := parameters.read (show _ ≤ fuel by omega)
      have read := value.read separates_semicolon (show 16 * _ + 6 ≤ fuel by omega)
      simp only [Reader.functionRest, Reader.identifier, if_pos name, Reader.functionTail, listed,
        kindAt, equal, List.drop_one, List.tail_cons, read, Option.bind_eq_bind, Option.bind_some]
      rfl
  | long name parameters opening inner closing ih =>
      intro nearest fuel enough
      have shorter := parameters.shorter
      simp only [List.length_cons] at enough shorter
      obtain ⟨fuel, rfl⟩ : ∃ k, fuel = k + 2 := ⟨fuel - 2, by omega⟩
      have listed := parameters.read (show _ ≤ fuel by omega)
      have body := (ih nearest).1 closing fuel (by omega)
      simp only [Reader.functionRest, Reader.identifier, if_pos name, Reader.functionTail, listed,
        kindAt, opening, Reader.expect, if_pos, body, Option.bind_eq_bind, Option.bind_some]
      rfl
  | nil =>
      intro _
      constructor
      · intro closing fuel enough
        obtain ⟨fuel, rfl⟩ : ∃ k, fuel = k + 1 := ⟨fuel - 1, by omega⟩
        rw [Reader.block, closing]
        rfl
      · intro ended fuel enough
        obtain ⟨fuel, rfl⟩ : ∃ k, fuel = k + 1 := ⟨fuel - 1, by omega⟩
        rw [Reader.declarations, ended]
        rfl
  | cons first others ihFirst ihOthers =>
      intro nearest
      have opens : opensDeclaration _ = true := first.opens
      have shorter := first.shorter
      simp only [Shorter] at shorter
      constructor
      · intro closing fuel enough
        obtain ⟨fuel, rfl⟩ : ∃ k, fuel = k + 1 := ⟨fuel - 1, by omega⟩
        have one := ihFirst nearest.1 (others.not_else (by rw [closing]; decide)) fuel (by omega)
        have more := (ihOthers nearest.2).1 closing fuel (by omega)
        rw [Reader.block, if_neg, if_neg, one]
        · simp only [Option.bind_eq_bind, Option.bind_some, more]
        · intro ended
          rw [eq_of_beq ended] at opens
          exact absurd opens (by decide)
        · intro closed
          rw [eq_of_beq closed] at opens
          exact absurd opens (by decide)
      · intro ended fuel enough
        obtain ⟨fuel, rfl⟩ : ∃ k, fuel = k + 1 := ⟨fuel - 1, by omega⟩
        have one := ihFirst nearest.1 (others.not_else (by rw [ended]; decide)) fuel (by omega)
        have more := (ihOthers nearest.2).2 ended fuel (by omega)
        rw [Reader.declarations, if_neg, one]
        · simp only [Option.bind_eq_bind, Option.bind_some, more]
        · intro here
          rw [eq_of_beq here] at opens
          exact absurd opens (by decide)

end Derives

end Reckoner.Script.Grammar
