import Reckoner.Proofs.Compiler.Verdict

/-!
Judging expressions. What is asked of an expression is asked of its parts, from left to right, each
part with the constants of those before it.
-/

namespace Reckoner.Compiler

open Script

def Hidden (locals : List Local) (name : String) : Prop :=
  ∃ slot, findSlot name locals = some (slot, false)

def Readable (locals : List Local) (names : List String) : Prop :=
  ∀ name ∈ names, ¬ Hidden locals name

/-- A piece of a tree may come next: what the language asks of it holds, its jumps are short, and
there is room for its constants. -/
structure Fits (entries : List Script.Entry) (legal : Prop) (code : List Directive) (new : List Script.Entry) :
    Prop where
  legal : legal
  short : ∀ d ∈ code, d.Short
  few : (gather entries new).length ≤ maxConstants

section

variable {entries new others : List Script.Entry} {p q : Prop} {code rest : List Directive}

theorem fits_congr (same : p ↔ q) : Fits entries p code new ↔ Fits entries q code new :=
  ⟨fun fits => ⟨same.mp fits.legal, fits.short, fits.few⟩,
    fun fits => ⟨same.mpr fits.legal, fits.short, fits.few⟩⟩

theorem fits_append : Fits entries (p ∧ q) (code ++ rest) (new ++ others) ↔
    Fits entries p code new ∧ Fits (gather entries new) q rest others := by
  constructor
  · rintro ⟨⟨left, right⟩, short, few⟩
    rw [gather_append] at few
    refine ⟨⟨left, ?_, Nat.le_trans (length_le_gather _ others) few⟩, ⟨right, ?_, few⟩⟩
    · exact fun d member => short d (List.mem_append_left _ member)
    · exact fun d member => short d (List.mem_append_right _ member)
  · rintro ⟨first, second⟩
    refine ⟨⟨first.legal, second.legal⟩, ?_, ?_⟩
    · intro d member
      rcases List.mem_append.mp member with old | later
      · exact first.short d old
      · exact second.short d later
    · rw [gather_append]
      exact second.few

theorem fits_cons {d : Directive} :
    Fits entries p (d :: code) new ↔ d.Short ∧ Fits entries p code new := by
  constructor
  · intro fits
    exact ⟨fits.short d List.mem_cons_self,
      { fits with short := fun d member => fits.short d (List.mem_cons_of_mem _ member) }⟩
  · rintro ⟨short, fits⟩
    refine ⟨fits.legal, fun other member => ?_, fits.few⟩
    rcases List.mem_cons.mp member with rfl | later
    · exact short
    · exact fits.short other later

theorem fits_behind :
    Fits entries p (code ++ rest) new ↔ Fits entries p code new ∧ ∀ d ∈ rest, d.Short := by
  constructor
  · intro fits
    exact ⟨{ fits with short := fun d member => fits.short d (List.mem_append_left _ member) },
      fun d member => fits.short d (List.mem_append_right _ member)⟩
  · rintro ⟨fits, short⟩
    refine ⟨fits.legal, fun d member => ?_, fits.few⟩
    rcases List.mem_append.mp member with old | later
    · exact fits.short d old
    · exact short d later

theorem fits_short (short : ∀ d ∈ rest, d.Short) :
    Fits entries p (code ++ rest) new ↔ Fits entries p code new :=
  fits_behind.trans (and_iff_left short)

theorem lawful_append {locals : List Local} {names more : List String} :
    (p ∧ q) ∧ Readable locals (names ++ more) ↔
      (p ∧ Readable locals names) ∧ (q ∧ Readable locals more) := by
  constructor
  · rintro ⟨⟨left, right⟩, readable⟩
    exact ⟨⟨left, fun name member => readable name (List.mem_append_left _ member)⟩,
      ⟨right, fun name member => readable name (List.mem_append_right _ member)⟩⟩
  · rintro ⟨⟨left, readable⟩, ⟨right, others⟩⟩
    refine ⟨⟨left, right⟩, fun name member => ?_⟩
    rcases List.mem_append.mp member with old | later
    · exact readable name old
    · exact others name later

end

namespace View

variable (v : View)

def Accepts (e : Expression) : Prop :=
  Fits v.entries (e.Legal ∧ Readable v.locals e.names) (e.code #[] v.scope) (e.entries v.scope)

def AcceptsAll (args : List Expression) : Prop :=
  Fits v.entries (LegalAll args ∧ Readable v.locals (namesOfAll args)) (codeOfAll #[] v.scope args)
    (entriesOfAll v.scope args)

def overAll (rest : List Token) (args : List Expression) : View :=
  v.after rest (entriesOfAll v.scope args) (codeSize (codeOfAll #[] v.scope args))

end View

/-! What is asked of each expression -/

theorem short_of_operand {op : Operation} {operand : Nat}
    (plain : op.operand ≠ .jump ∧ op.operand ≠ .loop) : Directive.Short ⟨op, operand⟩ := by
  rintro (jump | loop)
  · exact absurd jump plain.1
  · exact absurd loop plain.2

theorem short_loadOf (pool : Pool) (scope : List String) (name : String) :
    (loadOf pool scope name).Short := by
  rw [loadOf]
  split <;> exact short_of_operand (by decide)

theorem short_storeOf (pool : Pool) (scope : List String) (name : String) :
    (storeOf pool scope name).Short := by
  rw [storeOf]
  split <;> exact short_of_operand (by decide)

theorem short_operator (op : Operator) : ∀ d ∈ op.code, d.Short := by
  have plain : ∀ d ∈ op.code, d.op.operand ≠ .jump ∧ d.op.operand ≠ .loop := by
    cases op <;> decide
  exact fun d member => short_of_operand (plain d member)

theorem short_singleton {d : Directive} (short : d.Short) : ∀ other ∈ [d], other.Short := by
  intro other member
  rw [List.mem_singleton.mp member]
  exact short

theorem short_jump {distance : Nat} {op : Operation} (jump : op.operand = .jump) :
    Directive.Short ⟨op, distance⟩ ↔ distance ≤ maxJump :=
  ⟨fun short => short (.inl jump), fun few _ => few⟩

namespace View

variable {v : View} (ts : List Token)

theorem accepts_number (d : Decimal) :
    v.Accepts (.number d) ↔ (keep v.entries (.number d)).length ≤ maxConstants :=
  ⟨fun fits => fits.few, fun few =>
    ⟨⟨trivial, nofun⟩, short_singleton (short_of_operand (by decide)), few⟩⟩

theorem accepts_bool (few : v.entries.length ≤ maxConstants) (b : Bool) : v.Accepts (.bool b) :=
  ⟨⟨trivial, nofun⟩, short_singleton (short_of_operand (by cases b <;> decide)), few⟩

theorem accepts_read (name : String) :
    v.Accepts (.read name) ↔ ¬ Hidden v.locals name ∧
      (gather v.entries (nameEntries v.scope name)).length ≤ maxConstants := by
  constructor
  · exact fun fits => ⟨fits.legal.2 name List.mem_cons_self, fits.few⟩
  · rintro ⟨readable, few⟩
    refine ⟨⟨trivial, ?_⟩, short_singleton (short_loadOf _ _ _), few⟩
    intro other member
    rw [List.mem_singleton.mp member]
    exact readable

theorem accepts_assign (name : String) (e : Expression) (size : Nat) :
    v.Accepts (.assign name e) ↔ v.Accepts (.read name) ∧
      (v.after ts (nameEntries v.scope name) size).Accepts e := by
  have both : Fits v.entries ((True ∧ e.Legal) ∧ Readable v.locals ([name] ++ e.names))
      ([loadOf #[] v.scope name] ++ e.code #[] v.scope)
      (nameEntries v.scope name ++ e.entries v.scope) ↔
        v.Accepts (.read name) ∧ (v.after ts (nameEntries v.scope name) size).Accepts e :=
    (fits_congr lawful_append).trans fits_append
  rw [List.singleton_append, List.singleton_append, fits_cons,
    and_iff_right (short_loadOf _ _ _), true_and] at both
  rw [← both, Accepts, Expression.code, fits_short (short_singleton (short_storeOf _ _ _))]
  rfl

theorem accepts_update (name : String) (op : Operator) (e : Expression) (size : Nat) :
    v.Accepts (.update name op e) ↔ v.Accepts (.read name) ∧
      (v.after ts (nameEntries v.scope name) size).Accepts e := by
  rw [← accepts_assign, Accepts, Accepts, Expression.code, Expression.code, fits_cons,
    fits_short (short_singleton (short_storeOf _ _ _)), fits_short (short_operator op),
    fits_short (short_singleton (short_storeOf _ _ _)), and_iff_right (short_loadOf _ _ _)]
  rfl

theorem accepts_negate (e : Expression) : v.Accepts (.negate e) ↔ v.Accepts e :=
  fits_short (short_singleton (short_of_operand (by decide)))

theorem accepts_not (e : Expression) : v.Accepts (.not e) ↔ v.Accepts e :=
  fits_short (short_singleton (short_of_operand (by decide)))

theorem accepts_binary (op : Operator) (a b : Expression) :
    v.Accepts (.binary op a b) ↔ v.Accepts a ∧ (v.overOne ts a).Accepts b := by
  rw [Accepts, Expression.code, fits_short (short_operator op)]
  exact (fits_congr lawful_append).trans fits_append

theorem accepts_and (a b : Expression) :
    v.Accepts (.and a b) ↔ v.Accepts a ∧ (v.overOne ts a).Accepts b ∧
      codeSize (b.code #[] v.scope) + 1 ≤ maxJump := by
  refine ((fits_congr lawful_append).trans fits_append).trans (and_congr Iff.rfl ?_)
  rw [fits_cons, fits_cons, short_jump (by rfl), and_comm (a := codeSize _ + 1 ≤ maxJump),
    and_iff_right (short_of_operand (by decide))]
  rfl

theorem accepts_or (a b : Expression) :
    v.Accepts (.or a b) ↔ v.Accepts a ∧ (v.overOne ts a).Accepts b ∧
      codeSize (b.code #[] v.scope) + 1 ≤ maxJump := by
  refine ((fits_congr lawful_append).trans fits_append).trans (and_congr Iff.rfl ?_)
  rw [fits_cons, fits_cons, fits_cons, short_jump (by rfl), short_jump (by rfl),
    and_iff_right (by decide : 3 ≤ maxJump), and_comm (a := codeSize _ + 1 ≤ maxJump),
    and_iff_right (short_of_operand (by decide))]
  rfl

theorem accepts_call (f : Expression) (args : List Expression) :
    v.Accepts (.call f args) ↔ v.Accepts f ∧ (v.overOne ts f).AcceptsAll args ∧
      args.length ≤ maxArguments := by
  rw [Accepts, Expression.code, fits_short (short_singleton (short_of_operand (by decide)))]
  have both : Fits v.entries ((f.Legal ∧ LegalAll args) ∧ Readable v.locals (f.names ++ namesOfAll args))
      (f.code #[] v.scope ++ codeOfAll #[] v.scope args)
      (f.entries v.scope ++ entriesOfAll v.scope args) ↔
        v.Accepts f ∧ (v.overOne ts f).AcceptsAll args :=
    (fits_congr lawful_append).trans fits_append
  rw [← and_assoc, ← both]
  constructor
  · intro fits
    obtain ⟨⟨callee, arguments, few⟩, readable⟩ := fits.legal
    exact ⟨{ fits with legal := ⟨⟨callee, arguments⟩, readable⟩ }, few⟩
  · rintro ⟨fits, few⟩
    obtain ⟨⟨callee, arguments⟩, readable⟩ := fits.legal
    exact { fits with legal := ⟨⟨callee, arguments, few⟩, readable⟩ }

theorem acceptsAll_nil (few : v.entries.length ≤ maxConstants) : v.AcceptsAll [] :=
  ⟨⟨trivial, nofun⟩, nofun, few⟩

theorem acceptsAll_cons (e : Expression) (args : List Expression) :
    v.AcceptsAll (e :: args) ↔ v.Accepts e ∧ (v.overOne ts e).AcceptsAll args :=
  (fits_congr lawful_append).trans fits_append

end View

/-! Reading undone -/

section

variable {fuel : Nat} {ts rest : List Token} {t : Token} {e : Expression}

theorem climb_eq_some {level : Precedence}
    (read : Reader.climb (fuel + 1) level ts = some (e, rest)) :
    ∃ left us, Reader.operand fuel (level ≤ Precedence.assignment) ts = some (left, us) ∧
      Reader.operators fuel level left us = some (e, rest) ∧
      (decide (level ≤ Precedence.assignment) && isAssignment (Reader.kindAt rest)) = false := by
  simp only [Reader.climb, Option.bind_eq_bind, Option.bind_eq_some_iff, Prod.exists] at read
  obtain ⟨left, us, first, e', rest', others, last⟩ := read
  split at last
  · cases last
  · rename_i free
    cases last
    exact ⟨left, us, first, others, by simpa using free⟩

theorem operand_begins {assignable : Bool}
    (read : Reader.operand fuel assignable (t :: ts) = some (e, rest)) :
    beginsExpression t.kind = true := by
  cases fuel with
  | zero => exact absurd read nofun
  | succ fuel =>
      rw [Reader.operand] at read
      split at read
      all_goals first
        | (rename_i kind; rw [kind]; rfl)
        | simp at read

inductive Applied (fuel : Nat) (t : Token) (ts : List Token) (left : Expression) :
    Expression → List Token → Prop where
  | call {args : List Expression} {us rest : List Token} (kind : t.kind = .leftParen)
    (listed : (if Reader.kindAt ts == .rightParen then some ([], ts)
      else Reader.arguments fuel ts) = some (args, us))
    (closed : Reader.expect .rightParen us = some rest) : Applied fuel t ts left (.call left args) rest
  | and {right : Expression} {rest : List Token} (kind : t.kind = .and)
    (read : Reader.climb fuel Precedence.and ts = some (right, rest)) :
    Applied fuel t ts left (.and left right) rest
  | or {right : Expression} {rest : List Token} (kind : t.kind = .or)
    (read : Reader.climb fuel Precedence.or ts = some (right, rest)) :
    Applied fuel t ts left (.or left right) rest
  | binary {op : Operator} {right : Expression} {rest : List Token}
    (operator : Operator.ofKind? t.kind = some op)
    (read : Reader.climb fuel (Precedence.ofRight t.kind) ts = some (right, rest)) :
    Applied fuel t ts left (.binary op left right) rest

theorem applied_of_read {left : Expression}
    (read : Reader.operator (fuel + 1) left (t :: ts) = some (e, rest)) :
    Applied fuel t ts left e rest := by
  rw [Reader.operator] at read
  split at read
  · rename_i kind
    split at read
    · rename_i none
      simp only [Option.bind_eq_bind, Option.bind_some, Option.bind_eq_some_iff] at read
      obtain ⟨rest', closed, last⟩ := read
      cases last
      exact .call kind (if_pos none) closed
    · rename_i some
      simp only [Option.bind_eq_bind, Option.bind_eq_some_iff, Prod.exists] at read
      obtain ⟨args, us, listed, rest', closed, last⟩ := read
      cases last
      exact .call kind ((if_neg some).trans listed) closed
  · rename_i kind
    simp only [Option.bind_eq_bind, Option.bind_eq_some_iff, Prod.exists] at read
    obtain ⟨right, us, others, last⟩ := read
    cases last
    exact .and kind others
  · rename_i kind
    simp only [Option.bind_eq_bind, Option.bind_eq_some_iff, Prod.exists] at read
    obtain ⟨right, us, others, last⟩ := read
    cases last
    exact .or kind others
  · simp only [Option.bind_eq_bind, Option.bind_eq_some_iff, Prod.exists] at read
    obtain ⟨op, operator, right, us, others, last⟩ := read
    cases last
    exact .binary operator others

theorem Applied.more {left : Expression} (applied : Applied fuel t ts left e rest) :
    t.kind ≠ .eof := by
  intro ended
  cases applied with
  | call kind | and kind | or kind => exact absurd (ended.symm.trans kind) (by decide)
  | binary operator =>
      rw [ended] at operator
      exact absurd operator nofun

theorem binaryOps_of_operator {kind : Kind} {op : Operator}
    (operator : Operator.ofKind? kind = some op) : binaryOps kind = op.operations ∧
      kind ≠ .leftParen ∧ kind ≠ .and ∧ kind ≠ .or := by
  cases kind <;> first
    | (simp only [Operator.ofKind?, reduceCtorEq] at operator; done)
    | (obtain rfl := Option.some.inj operator; exact ⟨rfl, by decide, by decide, by decide⟩)

theorem Applied.accepts {left : Expression} (applied : Applied fuel t ts left e rest) {v : View}
    (accepts : v.Accepts e) : v.Accepts left := by
  cases applied with
  | call => exact ((View.accepts_call [] _ _).mp accepts).1
  | and => exact ((View.accepts_and [] _ _).mp accepts).1
  | or => exact ((View.accepts_or [] _ _).mp accepts).1
  | binary => exact ((View.accepts_binary [] _ _ _).mp accepts).1

theorem operators_accepts {level : Precedence} {left : Expression}
    (read : Reader.operators fuel level left ts = some (e, rest)) {v : View}
    (accepts : v.Accepts e) : v.Accepts left := by
  induction fuel generalizing left ts with
  | zero => cases read
  | succ fuel ih =>
      rw [Reader.operators] at read
      split at read
      · simp only [Option.bind_eq_bind, Option.bind_eq_some_iff, Prod.exists] at read
        obtain ⟨e', us, first, others⟩ := read
        have accepted := ih others
        cases fuel with
        | zero => cases first
        | succ fuel =>
            cases ts with
            | nil => cases first
            | cons t ts => exact (applied_of_read first).accepts accepted
      · cases read
        exact accepts

end

/-! Variables -/

theorem findSlot_hidden (name : String) (locals : List Local) :
    Hidden locals name ∨ (∃ slot, findSlot name locals = some (slot, true)) ∨
      findSlot name locals = none := by
  cases found : findSlot name locals with
  | none => exact .inr (.inr rfl)
  | some entry =>
      obtain ⟨slot, readable⟩ := entry
      cases readable with
      | true => exact .inr (.inl ⟨slot, rfl⟩)
      | false => exact .inl ⟨slot, found⟩

theorem Poised.access {s : Compiler} {v : View} (poised : Poised s v) :
    Verdict s.access.1 (v.Accepts (.read s.previous.lexeme))
      (v.after v.tokens (nameEntries v.scope s.previous.lexeme) 0) := by
  generalize nameEq : s.previous.lexeme = name
  rw [Compiler.access, nameEq, poised.locals]
  rcases findSlot_hidden name v.locals with ⟨slot, found⟩ | ⟨slot, found⟩ | missing
  · rw [found]
    refine (Verdict.of_fault poised.audible _ _).congr (iff_of_false not_false ?_)
    exact fun accepts => accepts.legal.2 name List.mem_cons_self ⟨slot, found⟩
  · have visible : slotOf name v.scope = some slot := findSlot_readable found
    have readable : ¬ Hidden v.locals name := by
      rintro ⟨other, hidden⟩
      rw [found] at hidden
      exact absurd hidden (by simp)
    rw [found, nameEntries, visible]
    refine ⟨iff_of_true poised.clean ((View.accepts_read name).mpr ⟨readable, ?_⟩), fun _ => poised⟩
    rw [nameEntries, visible]
    exact poised.few
  · have absent : slotOf name v.scope = none := findSlot_none missing
    have readable : ¬ Hidden v.locals name := by
      rintro ⟨other, hidden⟩
      rw [missing] at hidden
      exact absurd hidden nofun
    have stored := poised.constant (c := .text name) (e := .name name) rfl nofun
    rw [missing, nameEntries, absent]
    refine stored.congr ?_
    rw [View.accepts_read, and_iff_right readable, nameEntries, absent]
    rfl

theorem Poised.emitConstant {s : Compiler} {v : View} (poised : Poised s v) {c : Constant}
    {e : Script.Entry} (known : Script.Entry.ofConstant? c = some e) (plain : ∀ r, c ≠ .routine r) :
    Verdict (s.emitConstant c) ((keep v.entries e).length ≤ maxConstants)
      (v.after v.tokens [e] 2) :=
  (poised.constant known plain).step ((Reports.refl _).emitWith .constant _)
    fun stored => stored.emitWith .constant _

/-! Expressions -/

/-- With the given fuel an expression that can be read is accepted if and only if its parts are. -/
structure ExpressionVerdicts (fuel : Nat) : Prop where
  expression : ∀ {s : Compiler} {v : View} {e : Expression} {rest : List Token}, Poised s v →
    Reader.expression fuel v.tokens = some (e, rest) →
    Verdict (expression fuel s) (v.Accepts e) (v.overOne rest e)
  climb : ∀ {s : Compiler} {v : View} {e : Expression} {rest : List Token} {level : Precedence},
    Poised s v → Reader.climb fuel level v.tokens = some (e, rest) →
    Verdict (climb fuel level s) (v.Accepts e) (v.overOne rest e)
  operand : ∀ {s : Compiler} {v : View} {e : Expression} {rest : List Token} {assignable : Bool},
    Poised s v → Reader.operand fuel assignable (s.previous :: v.tokens) = some (e, rest) →
    Verdict (operand fuel assignable s) (v.Accepts e) (v.overOne rest e)
  named : ∀ {s : Compiler} {v : View} {e : Expression} {rest : List Token} {assignable : Bool},
    Poised s v → Reader.named fuel assignable s.previous.lexeme v.tokens = some (e, rest) →
    Verdict (named fuel assignable s) (v.Accepts e) (v.overOne rest e)
  operators : ∀ {s : Compiler} {v : View} {left e : Expression} {ts rest : List Token}
    {level : Precedence}, Poised s (v.overOne ts left) → v.Accepts left →
    Reader.operators fuel level left ts = some (e, rest) →
    Verdict (operators fuel level s) (v.Accepts e) (v.overOne rest e)
  operator : ∀ {s : Compiler} {v : View} {left e : Expression} {ts rest : List Token},
    Poised s (v.overOne ts left) → v.Accepts left →
    Reader.operator fuel left (s.previous :: ts) = some (e, rest) →
    Verdict (operator fuel s) (v.Accepts e) (v.overOne rest e)
  arguments : ∀ {s : Compiler} {v : View} {args : List Expression} {rest : List Token}
    {count : Nat}, Poised s v → count ≤ maxArguments →
    Reader.arguments fuel v.tokens = some (args, rest) →
    Verdict (arguments fuel count s).1 (v.AcceptsAll args ∧ count + args.length ≤ maxArguments)
      (v.overAll rest args)

theorem Verdict.congr_view {t : Compiler} {p : Prop} {v w : View} (verdict : Verdict t p v)
    (same : v = w) : Verdict t p w := same ▸ verdict

theorem View.over_eq {v : View} {rest : List Token} {e : Expression} {es : List Script.Entry} {here : Nat}
    (entries : es = gather v.entries (e.entries v.scope))
    (size : here = v.here + codeSize (e.code #[] v.scope)) :
    { v with tokens := rest, entries := es, here } = v.overOne rest e := by
  rw [entries, size]
  rfl

theorem size_loadOf (pool : Pool) (scope : List String) (name : String) :
    (loadOf pool scope name).size = 2 := by
  rw [loadOf]
  split <;> rfl

theorem size_storeOf (pool : Pool) (scope : List String) (name : String) :
    (storeOf pool scope name).size = 2 := by
  rw [storeOf]
  split <;> rfl

theorem codeSize_operator (op : Operator) : codeSize op.code = op.operations.length := by
  cases op <;> rfl

def behindName (fuel : Nat) (assignable : Bool) (a : Access) (t : Compiler) : Compiler :=
  if assignable && t.check .equal then (expression fuel t.advance).emitWith a.store a.operand
  else
    match (if assignable then compound? t.current.kind else none) with
    | some op =>
      let t := t.advance.emitWith a.load a.operand
      ((expression fuel t).emitOp op).emitWith a.store a.operand
    | none => t.emitWith a.load a.operand

theorem named_eq (fuel : Nat) (assignable : Bool) (s : Compiler) :
    named (fuel + 1) assignable s = behindName fuel assignable s.access.2 s.access.1 := by
  unfold behindName
  exact named.eq_2 assignable s fuel

theorem reports_behindName (fuel : Nat) (assignable : Bool) (a : Access) (t : Compiler) :
    Reports t (behindName fuel assignable a t) := by
  have reports := expressionReports fuel
  rw [behindName]
  split
  · exact (reports_advance t).trans ((reports.expression _).emitWith _ _)
  · split
    · exact (reports_advance t).trans
        (((Reports.refl _).emitWith _ _).trans (((reports.expression _).emitOp _).emitWith _ _))
    · exact (Reports.refl t).emitWith _ _

theorem compound_of_assignment {kind : Kind} {op : Operator}
    (update : Operator.ofAssignment? kind = some op) :
    ∃ o, compound? kind = some o ∧ op.operations = [o] := by
  cases found : compound? kind with
  | none =>
      rw [compound_none found] at update
      exact absurd update nofun
  | some o =>
      obtain ⟨other, same, operations⟩ := compound_some found
      obtain rfl := Option.some.inj (update.symm.trans same)
      exact ⟨o, rfl, operations⟩

theorem not_compound {kind : Kind} (plain : Operator.ofAssignment? kind = none) :
    compound? kind = none := by
  cases found : compound? kind with
  | none => rfl
  | some o =>
      obtain ⟨op, update, -⟩ := compound_some found
      exact absurd (plain.symm.trans update) nofun

theorem tokens_of_kind {ts : List Token} {kind : Kind} (here : (Reader.kindAt ts == kind) = true)
    (more : kind ≠ .eof) : ∃ t rest, ts = t :: rest ∧ t.kind = kind := by
  cases ts with
  | nil => exact absurd (eq_of_beq here).symm more
  | cons t rest => exact ⟨t, rest, rfl, eq_of_beq here⟩

namespace ExpressionVerdicts

variable {fuel : Nat} (ih : ExpressionVerdicts fuel) {s : Compiler} {v : View} {e : Expression}
  {rest : List Token}

include ih

theorem climb_succ {level : Precedence} (poised : Poised s v)
    (read : Reader.climb (fuel + 1) level v.tokens = some (e, rest)) :
    Verdict (Compiler.climb (fuel + 1) level s) (v.Accepts e) (v.overOne rest e) := by
  obtain ⟨left, us, first, others, free⟩ := climb_eq_some read
  cases ahead : v.tokens with
  | nil =>
      rw [ahead] at first
      cases fuel <;> exact absurd first nofun
  | cons t ts =>
      rw [ahead] at first
      have begins := operand_begins first
      have more : t.kind ≠ .eof := by
        intro ended
        rw [ended] at begins
        exact absurd begins (by decide)
      obtain ⟨passed, previous⟩ := poised.advance ahead more
      rw [Compiler.climb]
      simp only [previous, begins, Bool.not_true, Bool.false_eq_true, if_false]
      have judged := ih.operand passed (by rw [previous]; exact first)
      have whole := judged.and_then ((expressionReports fuel).operators level _)
        fun accepts behind => ih.operators (v := v) behind accepts others
      have same : v.Accepts left ∧ v.Accepts e ↔ v.Accepts e :=
        ⟨And.right, fun accepts => ⟨operators_accepts others accepts, accepts⟩⟩
      refine (whole.congr same).step ?_ fun behind => ?_
      · split
        · exact (reports_advance _).trans (reports_fault _ _)
        · exact .refl _
      · have kind : Reader.kindAt rest = _ := behind.kindAt
        rw [kind] at free
        rw [if_neg (by rw [free]; exact Bool.false_ne_true)]
        exact behind

theorem operand_succ {assignable : Bool} (poised : Poised s v)
    (read : Reader.operand (fuel + 1) assignable (s.previous :: v.tokens) = some (e, rest)) :
    Verdict (Compiler.operand (fuel + 1) assignable s) (v.Accepts e) (v.overOne rest e) := by
  rw [Reader.operand] at read
  rw [Compiler.operand]
  cases kindEq : s.previous.kind with
  | number =>
      simp only [kindEq] at read ⊢
      rw [numberLiteral]
      cases parsed : Decimal.parse s.previous.lexeme with
      | error message =>
          simp [parsed] at read
      | ok d =>
          rw [parsed] at read
          cases read
          exact (poised.emitConstant (c := .number d) rfl (by simp)).congr (View.accepts_number d).symm
  | true =>
      simp only [kindEq] at read ⊢
      cases read
      exact (Verdict.of_poised (poised.emitOp .true)).congr
        (iff_of_true trivial (View.accepts_bool poised.few _))
  | false =>
      simp only [kindEq] at read ⊢
      cases read
      exact (Verdict.of_poised (poised.emitOp .false)).congr
        (iff_of_true trivial (View.accepts_bool poised.few _))
  | leftParen =>
      simp only [kindEq, Option.bind_eq_bind, Option.bind_eq_some_iff, Prod.exists] at read ⊢
      obtain ⟨inner, us, first, rest', closed, last⟩ := read
      cases last
      exact (ih.expression poised first).step (reports_consume _ _ _)
        fun behind => (behind.consume _ (by decide) closed).1
  | minus =>
      simp only [kindEq, Option.bind_eq_bind, Option.bind_eq_some_iff, Prod.exists] at read ⊢
      obtain ⟨inner, us, first, last⟩ := read
      cases last
      refine (((ih.climb poised first).step ((Reports.refl _).emitOp .negate)
        fun behind => behind.emitOp .negate).congr (View.accepts_negate inner).symm).congr_view ?_
      refine View.over_eq (v := v) (e := .negate inner) rfl ?_
      rw [Expression.code, codeSize_append]
      rfl
  | bang =>
      simp only [kindEq, Option.bind_eq_bind, Option.bind_eq_some_iff, Prod.exists] at read ⊢
      obtain ⟨inner, us, first, last⟩ := read
      cases last
      refine (((ih.climb poised first).step ((Reports.refl _).emitOp .not)
        fun behind => behind.emitOp .not).congr (View.accepts_not inner).symm).congr_view ?_
      refine View.over_eq (v := v) (e := .not inner) rfl ?_
      rw [Expression.code, codeSize_append]
      rfl
  | identifier =>
      simp only [kindEq] at read ⊢
      exact ih.named poised read
  | _ => simp [kindEq] at read

section

variable {t : Compiler} {name : String} {value : Expression} {ts : List Token}
  (behind : Poised t (v.after v.tokens (nameEntries v.scope name) 0)) (a : Access)

include behind

theorem assign {assignable : Bool}
    (assigned : (assignable && Reader.kindAt v.tokens == .equal) = true)
    (read : Reader.expression fuel (v.tokens.drop 1) = some (value, rest)) :
    Verdict (behindName fuel assignable a t)
      ((v.after v.tokens (nameEntries v.scope name) 0).Accepts value)
      (v.overOne rest (.assign name value)) := by
  obtain ⟨x, ts, ahead, kind⟩ := tokens_of_kind (Bool.and_eq_true_iff.mp assigned).2 (by decide)
  have current := (behind.current ahead).1
  rw [ahead] at assigned read
  have here : (assignable && t.check .equal) = true := by
    rw [check, current]
    exact assigned
  rw [behindName, if_pos here]
  obtain ⟨passed, -⟩ := behind.advance ahead (by rw [kind]; decide)
  refine ((ih.expression passed read).step ((Reports.refl _).emitWith _ _)
    fun last => last.emitWith _ _).congr_view ?_
  refine View.over_eq (v := v) (e := .assign name value) (gather_append _ _ _).symm ?_
  rw [Expression.code, codeSize_append, codeSize, size_storeOf]
  rfl

theorem update {op : Operator} (plain : ¬ t.check .equal = true)
    (found : Operator.ofAssignment? (Reader.kindAt v.tokens) = some op)
    (read : Reader.expression fuel (v.tokens.drop 1) = some (value, rest)) :
    Verdict (behindName fuel true a t)
      ((v.after v.tokens (nameEntries v.scope name) 0).Accepts value)
      (v.overOne rest (.update name op value)) := by
  obtain ⟨o, compound, operations⟩ := compound_of_assignment found
  have more : Reader.kindAt v.tokens ≠ .eof := by
    intro ended
    rw [ended] at found
    cases found
  obtain ⟨x, ts, ahead, kind⟩ := tokens_of_kind (beq_self_eq_true _) more
  obtain ⟨passed, -⟩ := behind.advance ahead (by rw [kind]; exact more)
  have here : compound? t.current.kind = some o := by
    rw [← behind.kindAt]
    exact compound
  rw [behindName, Bool.true_and, if_neg plain, if_pos rfl, here]
  rw [ahead] at read
  refine ((ih.expression (passed.emitWith _ _) read).step
    (((Reports.refl _).emitOp _).emitWith _ _)
      fun last => (last.emitOp _).emitWith _ _).congr_view ?_
  refine View.over_eq (v := v) (e := .update name op value) (gather_append _ _ _).symm ?_
  rw [Expression.code, codeSize, codeSize_append, codeSize_append, codeSize, size_loadOf,
    size_storeOf, codeSize_operator, operations]
  simp only [View.overOne, View.after, View.scope, codeSize, List.length_singleton]
  omega

end

theorem named_succ {assignable : Bool} (poised : Poised s v)
    (read : Reader.named (fuel + 1) assignable s.previous.lexeme v.tokens = some (e, rest)) :
    Verdict (Compiler.named (fuel + 1) assignable s) (v.Accepts e) (v.overOne rest e) := by
  have looked := poised.access
  generalize s.previous.lexeme = name at read looked
  rw [named_eq]
  generalize s.access = accessed at looked
  obtain ⟨t, a⟩ := accessed
  have reports := reports_behindName fuel assignable a t
  rw [Reader.named] at read
  split at read
  · rename_i assigned
    simp only [Option.bind_eq_bind, Option.bind_eq_some_iff, Prod.exists] at read
    obtain ⟨value, us, first, last⟩ := read
    cases last
    exact (looked.and_then reports fun _ behind => ih.assign behind a assigned first).congr
      (View.accepts_assign v.tokens name value 0).symm
  · rename_i plain
    have judged : ∀ (w : Poised t (v.after v.tokens (nameEntries v.scope name) 0)),
        ¬ (assignable && t.check .equal) = true := by
      intro behind
      rw [check, ← behind.kindAt]
      exact plain
    split at read
    · rename_i op found
      simp only [Option.bind_eq_bind, Option.bind_eq_some_iff, Prod.exists] at read
      obtain ⟨value, us, first, last⟩ := read
      cases last
      cases assignable with
      | false => cases found
      | true =>
          exact (looked.and_then reports fun _ behind =>
            ih.update behind a (judged behind) found first).congr
              (View.accepts_update v.tokens name op value 0).symm
    · rename_i missing
      cases read
      refine looked.step reports fun behind => ?_
      have none : (if assignable = true then compound? t.current.kind else none) = none := by
        rw [← behind.kindAt]
        cases assignable with
        | false => rfl
        | true => exact not_compound missing
      rw [behindName, if_neg (judged behind), none]
      have written := behind.emitWith a.load a.operand
      have size : v.here + 2 = v.here + codeSize (Expression.code #[] v.scope (.read name)) := by
        rw [Expression.code, codeSize, size_loadOf]
        rfl
      have same : View.overOne v v.tokens (.read name) = _ := (View.over_eq rfl size).symm
      rw [same]
      exact written

theorem operators_succ {left : Expression} {ts : List Token} {level : Precedence}
    (poised : Poised s (v.overOne ts left)) (accepts : v.Accepts left)
    (read : Reader.operators (fuel + 1) level left ts = some (e, rest)) :
    Verdict (Compiler.operators (fuel + 1) level s) (v.Accepts e) (v.overOne rest e) := by
  have kind : Reader.kindAt ts = s.current.kind := poised.kindAt
  rw [Reader.operators, kind] at read
  rw [Compiler.operators]
  split at read
  · rename_i binds
    rw [if_pos binds]
    simp only [Option.bind_eq_bind, Option.bind_eq_some_iff, Prod.exists] at read
    obtain ⟨inner, us, first, others⟩ := read
    cases fuel with
    | zero => cases first
    | succ fuel =>
        cases ts with
        | nil => cases first
        | cons t ts =>
            have more : t.kind ≠ .eof := (applied_of_read first).more
            obtain ⟨passed, previous⟩ := poised.advance (t := t) rfl more
            have judged := ih.operator (v := v) passed accepts (by rw [previous]; exact first)
            refine (judged.and_then ((expressionReports _).operators level _)
              fun accepted behind => ih.operators (v := v) behind accepted others).congr ?_
            exact ⟨And.right, fun whole => ⟨operators_accepts others whole, whole⟩⟩
  · rename_i loose
    cases read
    rw [if_neg loose]
    exact (Verdict.of_poised poised).congr (iff_of_true trivial accepts)

theorem arguments_succ {args : List Expression} {count : Nat} (poised : Poised s v)
    (bound : count ≤ maxArguments)
    (read : Reader.arguments (fuel + 1) v.tokens = some (args, rest)) :
    Verdict (Compiler.arguments (fuel + 1) count s).1
      (v.AcceptsAll args ∧ count + args.length ≤ maxArguments) (v.overAll rest args) := by
  simp only [Reader.arguments, Option.bind_eq_bind, Option.bind_eq_some_iff, Prod.exists] at read
  obtain ⟨e, us, first, others⟩ := read
  have reports := expressionReports fuel
  have judged := ih.expression poised first
  rw [Compiler.arguments]
  generalize Compiler.expression fuel s = t at judged ⊢
  have counted : Verdict (if count = maxArguments then t.fault .tooManyArguments else t)
      (v.Accepts e ∧ count < maxArguments) (v.overOne us e) := by
    refine judged.and_then ?_ fun _ behind => ?_
    · split
      · exact reports_fault _ _
      · exact .refl _
    · by_cases full : count = maxArguments
      · rw [if_pos full]
        exact (Verdict.of_fault behind.audible _ _).congr (iff_of_false not_false (by omega))
      · rw [if_neg full]
        exact (Verdict.of_poised behind).congr (iff_of_true trivial (by omega))
  generalize (if count = maxArguments then t.fault .tooManyArguments else t) = u at counted ⊢
  have grown : Reports u (if u.check .comma = true then
      Compiler.arguments fuel (count + 1) u.advance else (u, count + 1)).1 := by
    split
    · exact (reports_advance u).trans (reports.arguments _ _)
    · exact .refl u
  split at others
  · rename_i isComma
    simp only [Option.bind_eq_some_iff, Prod.exists] at others
    obtain ⟨more, ws, readMore, last⟩ := others
    cases last
    refine (counted.and_then grown (q := (v.overOne us e).AcceptsAll more ∧
      count + 1 + more.length ≤ maxArguments) (w := v.overAll rest (e :: more))
      fun holds behind => ?_).congr ?_
    · obtain ⟨x, ts, ahead, kind⟩ := tokens_of_kind isComma (by decide)
      have here : u.check .comma = true := by
        rw [check, ← behind.kindAt]
        exact isComma
      rw [if_pos here]
      obtain ⟨passed, -⟩ := behind.advance ahead (by rw [kind]; decide)
      rw [ahead] at readMore
      refine (ih.arguments passed holds.2 readMore).congr_view ?_
      simp only [View.overAll, entriesOfAll, codeOfAll, codeSize_append]
      exact View.after_after v us rest _ _ _ _
    · rw [View.acceptsAll_cons us, List.length_cons]
      constructor
      · rintro ⟨⟨accepts, -⟩, acceptsAll, few⟩
        exact ⟨⟨accepts, acceptsAll⟩, by omega⟩
      · rintro ⟨⟨accepts, acceptsAll⟩, few⟩
        exact ⟨⟨accepts, by omega⟩, acceptsAll, by omega⟩
  · rename_i noComma
    cases others
    have one : v.overOne rest e = v.overAll rest [e] := by
      simp only [View.overAll, entriesOfAll, codeOfAll, List.append_nil]
      rfl
    rw [← one, View.acceptsAll_cons rest, List.length_singleton]
    refine (counted.step grown fun behind => ?_).congr ?_
    · have here : ¬ u.check .comma = true := by
        rw [check, ← behind.kindAt]
        exact noComma
      rw [if_neg here]
      exact behind
    · constructor
      · rintro ⟨accepts, few⟩
        exact ⟨⟨accepts, View.acceptsAll_nil accepts.few⟩, few⟩
      · rintro ⟨⟨accepts, -⟩, few⟩
        exact ⟨accepts, few⟩

theorem argument_list {args : List Expression} (poised : Poised s v)
    (read : (if Reader.kindAt v.tokens == .rightParen then some ([], v.tokens)
      else Reader.arguments fuel v.tokens) = some (args, rest)) :
    Verdict (if s.check .rightParen then (s, 0) else Compiler.arguments fuel 0 s).1
      (v.AcceptsAll args ∧ args.length ≤ maxArguments) (v.overAll rest args) := by
  rw [poised.kindAt] at read
  by_cases none : s.check .rightParen = true
  · rw [if_pos none]
    cases (if_pos none).symm.trans read
    exact (Verdict.of_poised poised).congr
      (iff_of_true trivial ⟨View.acceptsAll_nil poised.few, Nat.zero_le _⟩)
  · rw [if_neg none]
    have judged := ih.arguments poised (Nat.zero_le _) ((if_neg none).symm.trans read)
    rw [Nat.zero_add] at judged
    exact judged

theorem operator_succ {left : Expression} {ts : List Token} (poised : Poised s (v.overOne ts left))
    (accepts : v.Accepts left)
    (read : Reader.operator (fuel + 1) left (s.previous :: ts) = some (e, rest)) :
    Verdict (Compiler.operator (fuel + 1) s) (v.Accepts e) (v.overOne rest e) := by
  have reports := expressionReports fuel
  rw [Compiler.operator]
  cases applied_of_read read with
  | @call args us _ kind listed closed =>
      simp only [kind]
      have all := ih.argument_list poised listed
      generalize (if s.check .rightParen = true then (s, 0) else Compiler.arguments fuel 0 s)
        = counted at all ⊢
      refine ((all.step (((Reports.refl _).trans (reports_consume _ _ _)).emitWith .call _)
        fun behind => ((behind.consume _ (by decide) closed).1).emitWith .call _).congr ?_).congr_view
          ?_
      · rw [View.accepts_call ts, and_iff_right accepts]
      · refine View.over_eq (v := v) (e := .call left args) (gather_append _ _ _).symm ?_
        rw [Expression.code, codeSize_append, codeSize_append]
        simp only [View.overAll, View.overOne, View.after, View.scope]
        simp only [codeSize, Directive.size, Operation.operand, Operand.width]
        omega
  | @and right _ kind first =>
      simp only [kind]
      have opened := (poised.emitJump .jumpIfFalse).emitOp .pop
      refine ((ih.climb opened first).and_then (reports_patchJump _ _)
        fun _ behind => behind.patchJump _).congr ?_ |>.congr_view ?_
      · rw [View.accepts_and ts, and_iff_right accepts, poised.here]
        refine and_congr Iff.rfl ?_
        simp only [View.overOne, View.after, View.scope]
        omega
      · refine View.over_eq (v := v) (e := .and left right) (gather_append _ _ _).symm ?_
        rw [Expression.code, codeSize_append]
        simp only [View.overOne, View.after, View.scope]
        simp only [codeSize, Directive.size, Operation.operand, Operand.width]
        omega
  | @or right _ kind first =>
      simp only [kind]
      have jumps := (poised.emitJump .jumpIfFalse).emitJump .jump
      have short : Verdict _ (3 ≤ maxJump) _ := (jumps.patchJump (s.here + 1)).congr (by
        rw [poised.here]
        simp only []
        omega)
      have opened := (short.poised (short.clean_iff.mpr (by decide))).emitOp .pop
      refine ((ih.climb opened first).and_then (reports_patchJump _ _)
        fun _ behind => behind.patchJump _).congr ?_ |>.congr_view ?_
      · rw [View.accepts_or ts, and_iff_right accepts, here_emitJump, poised.here]
        refine and_congr Iff.rfl ?_
        simp only [View.overOne, View.after, View.scope]
        omega
      · refine View.over_eq (v := v) (e := .or left right) (gather_append _ _ _).symm ?_
        rw [Expression.code, codeSize_append]
        simp only [View.overOne, View.after, View.scope]
        simp only [codeSize, Directive.size, Operation.operand, Operand.width]
        omega
  | @binary op right _ operator first =>
      obtain ⟨operations, notCall, notAnd, notOr⟩ := binaryOps_of_operator operator
      have plain : Verdict ((Compiler.climb fuel (Precedence.ofRight s.previous.kind) s).emitOps
          (binaryOps s.previous.kind)) (v.Accepts (.binary op left right))
            (v.overOne rest (.binary op left right)) := by
        refine (((ih.climb poised first).step (reports_emitOps _ _)
          fun behind => behind.emitOps _).congr ?_).congr_view ?_
        · rw [View.accepts_binary ts, and_iff_right accepts]
        · refine View.over_eq (v := v) (e := .binary op left right) (gather_append _ _ _).symm ?_
          rw [Expression.code, codeSize_append, codeSize_append, codeSize_operator, operations]
          simp only [View.overOne, View.after, View.scope]
          omega
      split
      · contradiction
      · contradiction
      · contradiction
      · exact plain

end ExpressionVerdicts

theorem expressionVerdicts (fuel : Nat) : ExpressionVerdicts fuel := by
  induction fuel with
  | zero => constructor <;> (intros; contradiction)
  | succ fuel ih =>
      exact {
        expression := fun poised read => ih.climb poised read
        climb := fun poised read => ih.climb_succ poised read
        operand := fun poised read => ih.operand_succ poised read
        named := fun poised read => ih.named_succ poised read
        operators := fun poised accepts read => ih.operators_succ poised accepts read
        operator := fun poised accepts read => ih.operator_succ poised accepts read
        arguments := fun poised bound read => ih.arguments_succ poised bound read }

end Reckoner.Compiler
