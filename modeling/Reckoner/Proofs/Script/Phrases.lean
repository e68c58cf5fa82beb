import Reckoner.Proofs.Script.Grammar

/-!
Reading expressions. Climbing precedences finds exactly the phrases of the grammar, and of each the
only tree it has in front of a token that cannot continue it.
-/

namespace Reckoner.Script.Grammar

open Compiler (Precedence isAssignment beginsExpression)
open Reader (kindAt)

def groupsRight (level : Precedence) : Prop :=
  level = Precedence.or ∨ level = Precedence.and ∨ level = Precedence.exponent

/-- A token of this kind cannot continue a phrase of the level. -/
structure Stops (level : Precedence) (kind : Kind) : Prop where
  loose : Precedence.ofKind kind ≤ level
  right : groupsRight level → Precedence.ofKind kind ≠ level

theorem Stops.of_lt {level : Precedence} {kind : Kind} (less : Precedence.ofKind kind < level) :
    Stops level kind :=
  ⟨Nat.le_of_lt less, fun _ => Nat.ne_of_lt less⟩

theorem Stops.tighter {level : Precedence} {kind : Kind} (stops : Stops level kind) :
    Stops (level + 1) kind :=
  .of_lt (Nat.lt_succ_of_le stops.loose)

theorem Stops.lt {level : Precedence} {kind : Kind} (stops : Stops level kind)
    (special : groupsRight level ∨ level = Precedence.unary ∨ level = Precedence.assignment) :
    Precedence.ofKind kind < level := by
  refine Nat.lt_of_le_of_ne stops.loose ?_
  rcases special with right | rfl | rfl
  · exact stops.right right
  · cases kind <;> decide
  · cases kind <;> decide

theorem stops_call (kind : Kind) : Stops Precedence.call kind := by
  constructor
  · cases kind <;> decide
  · rintro (other | other | other) <;> exact absurd other (by decide)

structure Between (kind : Kind) (op : Operator) : Prop where
  level : Precedence.ofKind kind = op.level
  right : Precedence.ofRight kind = if op = .power then Precedence.exponent else op.level + 1
  notCall : kind ≠ .leftParen
  notAnd : kind ≠ .and
  notOr : kind ≠ .or
  plain : isAssignment kind = false

theorem between_of_operator {kind : Kind} {op : Operator}
    (operator : Operator.ofKind? kind = some op) : Between kind op := by
  cases kind <;> first
    | (simp only [Operator.ofKind?, reduceCtorEq] at operator; done)
    | (obtain rfl := Option.some.inj operator; constructor <;> decide)

theorem level_pos (op : Operator) : Precedence.equality ≤ op.level ∧ op.level ≤ Precedence.exponent := by
  cases op <;> decide

theorem level_left {op : Operator} (notPower : op ≠ .power) :
    ¬groupsRight op.level ∧ op.level < Precedence.exponent := by
  unfold groupsRight
  cases op <;> first
    | exact absurd rfl notPower
    | decide

namespace Phrase

variable {part : Part} {ts rest : List Token} {tree : part.Tree}

theorem shorter (phrase : Phrase part ts tree rest) : rest.length < ts.length := by
  induction phrase with
  | tighter _ _ _ ih => exact ih
  | assign _ _ _ ih | update _ _ _ ih | negate _ _ ih | not _ _ ih =>
      simp only [List.length_cons]
      omega
  | or _ _ _ left right | and _ _ _ left right | binary _ _ _ _ left right
  | power _ _ _ left right | arguments _ _ _ left right =>
      simp only [List.length_cons] at left
      omega
  | call _ _ _ _ left right =>
      simp only [List.length_cons] at left right
      omega
  | callNone _ _ _ ih | parentheses _ _ _ ih =>
      simp only [List.length_cons] at ih ⊢
      omega
  | number | trueLiteral | falseLiteral | read => exact Nat.lt_succ_self _
  | argument _ ih => exact ih

theorem begins (phrase : Phrase part ts tree rest) : beginsExpression (kindAt ts) = true := by
  induction phrase with
  | tighter _ _ _ ih => exact ih
  | or _ _ _ ih _ | and _ _ _ ih _ | binary _ _ _ _ ih _ | power _ _ _ ih _ | call _ _ _ _ ih _
  | callNone _ _ _ ih | argument _ ih | arguments _ _ _ ih _ => exact ih
  | assign kind _ _ _ | update kind _ _ _ | negate kind _ _ | not kind _ _ | number kind _
  | trueLiteral kind | falseLiteral kind | read kind | parentheses kind _ _ _ =>
      rw [kindAt, kind]
      rfl

theorem loosen {level other : Precedence} {e : Expression} (positive : 1 ≤ level)
    (le : level ≤ other) (bound : other ≤ primary)
    (phrase : Phrase (.expression other) ts e rest) : Phrase (.expression level) ts e rest := by
  induction le with
  | refl => exact phrase
  | step le ih =>
      exact ih (Nat.le_of_succ_le bound) (.tighter (Nat.le_trans positive le) bound phrase)

end Phrase

/-! Every phrase is read -/

def climbFrom (fuel : Nat) (level : Precedence) (ts : List Token) :
    Option (Expression × List Token) := do
  let (left, ts) ← Reader.operand fuel (decide (level ≤ Precedence.assignment)) ts
  Reader.operators fuel level left ts

def Read : (part : Part) → List Token → part.Tree → List Token → Prop
  | .expression level, ts, e, rest => ∀ fuel m, 1 ≤ m → m ≤ level → Stops level (kindAt rest) →
    isAssignment (kindAt rest) = false → 16 * ts.length + 4 ≤ fuel →
    ∃ left, 16 * rest.length + 4 ≤ left ∧ climbFrom fuel m ts = Reader.operators left m e rest
  | .arguments, ts, args, rest => ∀ fuel, kindAt rest = .rightParen → 16 * ts.length + 8 ≤ fuel →
    Reader.arguments fuel ts = some (args, rest)

theorem operators_stop {fuel : Nat} {level : Precedence} {e : Expression} {ts : List Token}
    (enough : 0 < fuel) (less : Precedence.ofKind (kindAt ts) < level) :
    Reader.operators fuel level e ts = some (e, ts) := by
  obtain ⟨fuel, rfl⟩ := Nat.exists_eq_succ_of_ne_zero (Nat.ne_of_gt enough)
  rw [Reader.operators, if_neg (Nat.not_le_of_lt less)]

section

variable {ts rest : List Token} {e : Expression} {fuel : Nat} {level : Precedence}

theorem climb_of_read (read : Read (.expression level) ts e rest) (positive : 1 ≤ level)
    (less : Precedence.ofKind (kindAt rest) < level) (plain : isAssignment (kindAt rest) = false)
    (enough : 16 * ts.length + 5 ≤ fuel) : Reader.climb fuel level ts = some (e, rest) := by
  obtain ⟨fuel, rfl⟩ := Nat.exists_eq_succ_of_ne_zero (show fuel ≠ 0 by omega)
  obtain ⟨left, more, same⟩ := read fuel level positive (Nat.le_refl _) (.of_lt less) plain (by omega)
  rw [operators_stop (by omega) less] at same
  rw [climbFrom] at same
  rw [Reader.climb]
  simp only [Option.bind_eq_bind] at same ⊢
  obtain ⟨⟨first, us⟩, operand, operators⟩ := Option.bind_eq_some_iff.mp same
  rw [operand, Option.bind_some, operators, Option.bind_some, plain, Bool.and_false]
  rfl

theorem expression_of_read (read : Read (.expression Precedence.assignment) ts e rest)
    (less : Precedence.ofKind (kindAt rest) < Precedence.assignment)
    (plain : isAssignment (kindAt rest) = false) (enough : 16 * ts.length + 6 ≤ fuel) :
    Reader.expression fuel ts = some (e, rest) := by
  obtain ⟨fuel, rfl⟩ := Nat.exists_eq_succ_of_ne_zero (show fuel ≠ 0 by omega)
  rw [Reader.expression]
  exact climb_of_read read (Nat.le_refl 1) less plain (by omega)

theorem read_of_operator {t : Token} {us : List Token} {a b : Expression}
    {join : Expression → Expression} {inner right : Precedence} (left : Read (.expression inner) ts a (t :: us))
    (le : level ≤ inner) (stops : Stops inner t.kind) (plain : isAssignment t.kind = false)
    (binds : level ≤ Precedence.ofKind t.kind)
    (taken : ∀ fuel, Reader.operator (fuel + 1) a (t :: us) =
      (Reader.climb fuel right us).bind fun (b, ts) => some (join b, ts))
    (read : Read (.expression right) us b rest) (positive : 1 ≤ right)
    (shorter : rest.length < us.length)
    (less : Stops level (kindAt rest) → Precedence.ofKind (kindAt rest) < right) :
    Read (.expression level) ts (join b) rest := by
  intro fuel m positiveM leM stopsRest plainRest enough
  obtain ⟨more, bound, same⟩ := left fuel m positiveM (Nat.le_trans leM le) stops plain enough
  rw [List.length_cons] at bound
  obtain ⟨more, rfl⟩ : ∃ k, more = k + 2 := ⟨more - 2, by omega⟩
  refine ⟨more + 1, by omega, ?_⟩
  have here : m ≤ Precedence.ofKind (kindAt (t :: us)) := Nat.le_trans leM binds
  rw [same, Reader.operators, if_pos here, taken,
    climb_of_read read positive (less stopsRest) plainRest (by omega)]
  rfl

end

section Operators

variable {t : Token} {us : List Token} {fuel : Nat} (left : Expression)

theorem operator_or (kind : t.kind = .or) : Reader.operator (fuel + 1) left (t :: us) =
    (Reader.climb fuel Precedence.or us).bind fun (b, ts) => some (.or left b, ts) := by
  simp only [Reader.operator, kind, Option.bind_eq_bind]

theorem operator_and (kind : t.kind = .and) : Reader.operator (fuel + 1) left (t :: us) =
    (Reader.climb fuel Precedence.and us).bind fun (b, ts) => some (.and left b, ts) := by
  simp only [Reader.operator, kind, Option.bind_eq_bind]

theorem operator_binary {op : Operator} (operator : Operator.ofKind? t.kind = some op) :
    Reader.operator (fuel + 1) left (t :: us) =
      (Reader.climb fuel (if op = .power then Precedence.exponent else op.level + 1) us).bind
        fun (b, ts) => some (.binary op left b, ts) := by
  have between := between_of_operator operator
  rw [Reader.operator]
  split
  · exact absurd (by assumption) between.notCall
  · exact absurd (by assumption) between.notAnd
  · exact absurd (by assumption) between.notOr
  · rw [operator, between.right]
    rfl

theorem operator_call {u : Token} {rest : List Token} {args : List Expression}
    (opening : t.kind = .leftParen) (closing : u.kind = .rightParen)
    (listed : (if kindAt us == .rightParen then some ([], us) else Reader.arguments fuel us) =
      some (args, u :: rest)) :
    Reader.operator (fuel + 1) left (t :: us) = some (.call left args, rest) := by
  rw [Reader.operator]
  simp only [opening, Option.bind_eq_bind]
  split at listed
  · rename_i none
    obtain ⟨rfl, rfl⟩ : [] = args ∧ us = u :: rest := by simpa using listed
    rw [if_pos none, Option.bind_some, Reader.expect, if_pos closing]
    rfl
  · rename_i some
    rw [if_neg some, listed, Option.bind_some, Reader.expect, if_pos closing]
    rfl

end Operators

section Operands

variable {t u : Token} {ts rest : List Token} {e : Expression} {level : Precedence}

theorem read_of_sign {sign : Expression → Expression}
    (taken : ∀ fuel assignable, Reader.operand (fuel + 1) assignable (t :: ts) =
      (Reader.climb fuel Precedence.unary ts).bind fun (e, ts) => some (sign e, ts))
    (read : Read (.expression Precedence.unary) ts e rest) (shorter : rest.length < ts.length) :
    Read (.expression Precedence.unary) (t :: ts) (sign e) rest := by
  intro fuel m positive le stops plain enough
  rw [List.length_cons] at enough
  obtain ⟨fuel, rfl⟩ : ∃ k, fuel = k + 1 := ⟨fuel - 1, by omega⟩
  have less := stops.lt (.inr (.inl rfl))
  refine ⟨fuel + 1, by omega, ?_⟩
  rw [climbFrom, taken, climb_of_read read (by decide) less plain (by omega)]
  rfl

theorem read_of_assignment {assign : Expression → Expression} (name : t.kind = .identifier)
    (taken : ∀ fuel, Reader.named (fuel + 1) true t.lexeme (u :: ts) =
      (Reader.expression fuel ts).bind fun (e, ts) => some (assign e, ts))
    (read : Read (.expression Precedence.assignment) ts e rest)
    (shorter : rest.length < ts.length) :
    Read (.expression Precedence.assignment) (t :: u :: ts) (assign e) rest := by
  intro fuel m positive le stops plain enough
  simp only [List.length_cons] at enough
  obtain ⟨fuel, rfl⟩ : ∃ k, fuel = k + 2 := ⟨fuel - 2, by omega⟩
  have less := stops.lt (.inr (.inr rfl))
  have assignable : decide (m ≤ Precedence.assignment) = true := decide_eq_true le
  refine ⟨fuel + 2, by omega, ?_⟩
  rw [climbFrom, assignable, Reader.operand]
  simp only [name]
  rw [taken, expression_of_read read less plain (by omega)]
  rfl

theorem read_of_token (taken : ∀ fuel assignable,
      (assignable = true → isAssignment (kindAt ts) = false) →
      Reader.operand (fuel + 2) assignable (t :: ts) = some (e, ts)) :
    Read (.expression level) (t :: ts) e ts := by
  intro fuel m _ _ _ plain enough
  rw [List.length_cons] at enough
  obtain ⟨fuel, rfl⟩ : ∃ k, fuel = k + 2 := ⟨fuel - 2, by omega⟩
  refine ⟨fuel + 2, by omega, ?_⟩
  rw [climbFrom, taken fuel _ fun _ => plain]
  rfl

theorem named_read {fuel : Nat} {assignable : Bool} {name : String}
    (plain : assignable = true → isAssignment (kindAt ts) = false) :
    Reader.named (fuel + 1) assignable name ts = some (.read name, ts) := by
  cases assignable with
  | false => rfl
  | true =>
      have other := plain rfl
      rw [isAssignment, Bool.or_eq_false_iff] at other
      rw [Reader.named, other.1]
      have none : Operator.ofAssignment? (kindAt ts) = none := by
        generalize kindAt ts = kind at other
        cases kind <;> first
          | rfl
          | exact absurd other.2 (by decide)
      rw [if_pos rfl, none]
      rfl

end Operands

section Calls

variable {t u : Token} {ts us rest : List Token} {f : Expression} {args : List Expression}

theorem read_of_call (callee : Read (.expression Precedence.call) ts f (t :: us))
    (opening : t.kind = .leftParen) (closing : u.kind = .rightParen)
    (shorter : rest.length < us.length)
    (listed : ∀ fuel, 16 * us.length + 8 ≤ fuel →
      (if kindAt us == .rightParen then some ([], us) else Reader.arguments fuel us) =
        some (args, u :: rest)) :
    Read (.expression Precedence.call) ts (.call f args) rest := by
  intro fuel m positive le stops plain enough
  obtain ⟨more, bound, same⟩ := callee fuel m positive le (stops_call _)
    (by rw [kindAt, opening]; rfl) enough
  rw [List.length_cons] at bound
  obtain ⟨more, rfl⟩ : ∃ k, more = k + 2 := ⟨more - 2, by omega⟩
  have here : m ≤ Precedence.ofKind (kindAt (t :: us)) := by
    rw [kindAt, opening]
    exact le
  refine ⟨more + 1, by omega, ?_⟩
  rw [same, Reader.operators, if_pos here, operator_call f opening closing (listed more (by omega))]
  rfl

theorem not_equal {kind : Kind} {op : Operator} (compound : Operator.ofAssignment? kind = some op) :
    (kind == .equal) = false := by
  cases kind <;> first
    | rfl
    | exact absurd compound (by simp [Operator.ofAssignment?])

theorem not_closing {kind : Kind} (begins : beginsExpression kind = true) :
    (kind == .rightParen) = false := by
  cases kind <;> first
    | rfl
    | exact absurd begins (by decide)

end Calls

theorem Phrase.read_of {part : Part} {ts rest : List Token} {tree : part.Tree}
    (phrase : Phrase part ts tree rest) : Read part ts tree rest := by
  induction phrase with
  | tighter positive loose inner ih =>
      intro fuel m positiveM le stops plain enough
      exact ih fuel m positiveM (Nat.le_succ_of_le le) stops.tighter plain enough
  | assign name equal value ih =>
      refine read_of_assignment name (fun fuel => ?_) ih value.shorter
      rw [Reader.named, kindAt, equal]
      rfl
  | update name compound value ih =>
      refine read_of_assignment name (fun fuel => ?_) ih value.shorter
      rw [Reader.named, kindAt, compound]
      rw [not_equal compound]
      rfl
  | or left connective right ihLeft ihRight =>
      refine read_of_operator ihLeft (by decide) ?_ ?_ ?_ (fun _ => operator_or _ connective) ihRight
        (by decide) right.shorter fun stops => stops.lt (.inl (.inl rfl))
      all_goals rw [connective]
      · exact .of_lt (by decide)
      · rfl
      · decide
  | and left connective right ihLeft ihRight =>
      refine read_of_operator ihLeft (by decide) ?_ ?_ ?_ (fun _ => operator_and _ connective)
        ihRight (by decide) right.shorter fun stops => stops.lt (.inl (.inr (.inl rfl)))
      all_goals rw [connective]
      · exact .of_lt (by decide)
      · rfl
      · decide
  | binary left operator notPower right ihLeft ihRight =>
      have between := between_of_operator operator
      refine read_of_operator ihLeft (Nat.le_refl _) ?_ between.plain ?_
        (fun _ => operator_binary _ operator) ?_ ?_ right.shorter ?_
      · exact ⟨Nat.le_of_eq between.level, fun grouped => absurd grouped (level_left notPower).1⟩
      · exact Nat.le_of_eq between.level.symm
      · rw [if_neg notPower]
        exact ihRight
      · rw [if_neg notPower]
        exact Nat.succ_pos _
      · intro stops
        rw [if_neg notPower]
        exact Nat.lt_succ_of_le stops.loose
  | power left operator right ihLeft ihRight =>
      have powers : Operator.ofKind? .starStar = some .power := rfl
      rw [← operator] at powers
      refine read_of_operator ihLeft (by decide) ?_ ?_ ?_ (fun _ => operator_binary _ powers) ihRight
        (by decide) right.shorter fun stops => stops.lt (.inl (.inr (.inr rfl)))
      all_goals rw [operator]
      · exact .of_lt (by decide)
      · rfl
      · decide
  | negate sign operand ih =>
      refine read_of_sign (fun fuel assignable => ?_) ih operand.shorter
      simp only [Reader.operand, sign, Option.bind_eq_bind]
  | not sign operand ih =>
      refine read_of_sign (fun fuel assignable => ?_) ih operand.shorter
      simp only [Reader.operand, sign, Option.bind_eq_bind]
  | call callee opening given closing ihCallee ihGiven =>
      refine read_of_call ihCallee opening closing (Nat.lt_of_succ_lt given.shorter)
        fun fuel enough => ?_
      have more : (kindAt _ == Kind.rightParen) = false := not_closing given.begins
      rw [more]
      exact ihGiven fuel closing enough
  | callNone callee opening closing ih =>
      refine read_of_call ih opening closing (Nat.lt_succ_self _) fun fuel enough => ?_
      rw [kindAt, closing]
      rfl
  | number literal readable =>
      refine read_of_token fun fuel assignable _ => ?_
      simp only [Reader.operand, literal, readable]
  | trueLiteral literal =>
      refine read_of_token fun fuel assignable _ => ?_
      simp only [Reader.operand, literal]
  | falseLiteral literal =>
      refine read_of_token fun fuel assignable _ => ?_
      simp only [Reader.operand, literal]
  | read name =>
      refine read_of_token fun fuel assignable plain => ?_
      simp only [Reader.operand, name]
      exact named_read plain
  | parentheses opening inner closing ih =>
      have shorter := inner.shorter
      rw [List.length_cons] at shorter
      intro fuel m _ _ _ _ enough
      rw [List.length_cons] at enough
      obtain ⟨fuel, rfl⟩ : ∃ k, fuel = k + 1 := ⟨fuel - 1, by omega⟩
      refine ⟨fuel + 1, by omega, ?_⟩
      have whole := expression_of_read ih (by rw [kindAt, closing]; decide)
        (by rw [kindAt, closing]; rfl) (show _ ≤ fuel by omega)
      rw [climbFrom, Reader.operand]
      simp only [opening, whole, Reader.expect, if_pos closing, Option.bind_eq_bind,
        Option.bind_some]
  | argument only ih =>
      intro fuel closing enough
      obtain ⟨fuel, rfl⟩ : ∃ k, fuel = k + 1 := ⟨fuel - 1, by omega⟩
      have whole := expression_of_read ih (by rw [closing]; decide) (by rw [closing]; rfl)
        (show _ ≤ fuel by omega)
      rw [Reader.arguments, whole]
      simp only [Option.bind_eq_bind, Option.bind_some, closing]
      rfl
  | arguments first comma others ihFirst ihOthers =>
      intro fuel closing enough
      have shorter := first.shorter
      rw [List.length_cons] at shorter
      obtain ⟨fuel, rfl⟩ : ∃ k, fuel = k + 1 := ⟨fuel - 1, by omega⟩
      have whole := expression_of_read ihFirst (by rw [kindAt, comma]; decide)
        (by rw [kindAt, comma]; rfl) (show _ ≤ fuel by omega)
      have more := ihOthers fuel closing (by omega)
      rw [Reader.arguments, whole]
      simp only [Option.bind_eq_bind, Option.bind_some, kindAt, comma, List.drop_one,
        List.tail_cons, more]
      rfl

/-! Only phrases are read -/

def Standing (level : Precedence) (ts : List Token) (e : Expression) (rest : List Token) : Prop :=
  ∃ other, level ≤ other ∧ other ≤ primary ∧ Phrase (.expression other) ts e rest ∧
    Stops other (kindAt rest)

theorem Standing.phrase {level : Precedence} {ts rest : List Token} {e : Expression}
    (standing : Standing level ts e rest) (positive : 1 ≤ level) :
    Phrase (.expression level) ts e rest := by
  obtain ⟨other, le, bound, phrase, -⟩ := standing
  exact phrase.loosen positive le bound

/-- Reading with some fuel finds nothing but phrases. Between two operands no level is asked for that
is tighter than that of a sign. -/
structure PhrasesRead (fuel : Nat) : Prop where
  expression : ∀ {ts rest : List Token} {e : Expression},
    Reader.expression fuel ts = some (e, rest) → Whole ts e rest ∧ Precedence.ofKind (kindAt rest) = 0
  climb : ∀ {level : Precedence} {ts rest : List Token} {e : Expression}, 1 ≤ level →
    level ≤ Precedence.unary → Reader.climb fuel level ts = some (e, rest) →
    Phrase (.expression level) ts e rest ∧ Precedence.ofKind (kindAt rest) < level
  operand : ∀ {level : Precedence} {ts rest : List Token} {e : Expression}, 1 ≤ level →
    level ≤ Precedence.unary →
    Reader.operand fuel (decide (level ≤ Precedence.assignment)) ts = some (e, rest) →
    Standing level ts e rest
  named : ∀ {level : Precedence} {t : Token} {ts rest : List Token} {e : Expression}, 1 ≤ level →
    level ≤ Precedence.unary → t.kind = .identifier →
    Reader.named fuel (decide (level ≤ Precedence.assignment)) t.lexeme ts = some (e, rest) →
    Standing level (t :: ts) e rest
  operators : ∀ {level : Precedence} {ts us rest : List Token} {left e : Expression}, 1 ≤ level →
    level ≤ Precedence.unary → Standing level ts left us →
    Reader.operators fuel level left us = some (e, rest) →
    Phrase (.expression level) ts e rest ∧ Precedence.ofKind (kindAt rest) < level
  operator : ∀ {level : Precedence} {ts us rest : List Token} {left e : Expression}, 1 ≤ level →
    level ≤ Precedence.ofKind (kindAt us) → Standing level ts left us →
    Reader.operator fuel left us = some (e, rest) → Standing level ts e rest
  arguments : ∀ {ts rest : List Token} {args : List Expression},
    Reader.arguments fuel ts = some (args, rest) → Phrase .arguments ts args rest

theorem expect_eq {kind : Kind} {ts rest : List Token}
    (passed : Reader.expect kind ts = some rest) : ∃ t, ts = t :: rest ∧ t.kind = kind := by
  cases ts with
  | nil => exact absurd passed nofun
  | cons t us =>
      rw [Reader.expect] at passed
      split at passed
      · rename_i same
        exact ⟨t, by rw [Option.some.inj passed], same⟩
      · exact absurd passed nofun

theorem Standing.split {level right : Precedence} {t : Token} {ts us : List Token} {e : Expression}
    (standing : Standing level ts e (t :: us)) (kind : Precedence.ofKind t.kind = right)
    (grouped : groupsRight right) : Phrase (.expression (right + 1)) ts e (t :: us) := by
  obtain ⟨other, -, bound, phrase, stops⟩ := standing
  have loose : right ≤ other := by
    rw [← kind]
    exact stops.loose
  refine phrase.loosen (Nat.succ_pos _) (Nat.lt_of_le_of_ne loose ?_) bound
  rintro rfl
  exact stops.right grouped kind

theorem Standing.of_grouped {level right : Precedence} {ts rest : List Token} {e : Expression}
    (le : level ≤ right) (bound : right ≤ primary) (phrase : Phrase (.expression right) ts e rest)
    (less : Precedence.ofKind (kindAt rest) < right) : Standing level ts e rest :=
  ⟨right, le, bound, phrase, .of_lt less⟩

theorem operator_of_binding {kind : Kind} (binds : 1 ≤ Precedence.ofKind kind)
    (notCall : kind ≠ .leftParen) (notAnd : kind ≠ .and) (notOr : kind ≠ .or) :
    ∃ op, Operator.ofKind? kind = some op := by
  cases kind <;> first
    | exact ⟨_, rfl⟩
    | exact absurd binds (by decide)
    | exact absurd rfl notCall
    | exact absurd rfl notAnd
    | exact absurd rfl notOr

theorem starStar_of_power {kind : Kind} (power : Operator.ofKind? kind = some .power) :
    kind = .starStar := by
  cases kind <;> first
    | rfl
    | exact absurd power (by decide)

namespace PhrasesRead

variable {fuel : Nat} (ih : PhrasesRead fuel) {level : Precedence} {ts us rest : List Token}
  {e left : Expression}

include ih

theorem climb_succ (positive : 1 ≤ level) (bound : level ≤ Precedence.unary)
    (read : Reader.climb (fuel + 1) level ts = some (e, rest)) :
    Phrase (.expression level) ts e rest ∧ Precedence.ofKind (kindAt rest) < level := by
  rw [Reader.climb] at read
  simp only [Option.bind_eq_bind] at read
  obtain ⟨⟨first, us⟩, operand, read⟩ := Option.bind_eq_some_iff.mp read
  obtain ⟨⟨whole, vs⟩, operators, read⟩ := Option.bind_eq_some_iff.mp read
  have found := ih.operators positive bound (ih.operand positive bound operand) operators
  dsimp only at read
  split at read
  · exact absurd read nofun
  · cases read
    exact found

theorem named_succ {t : Token} (bound : level ≤ Precedence.unary)
    (name : t.kind = .identifier)
    (read : Reader.named (fuel + 1) (decide (level ≤ Precedence.assignment)) t.lexeme ts =
      some (e, rest)) : Standing level (t :: ts) e rest := by
  have assigned : ∀ {e : Expression}, level ≤ Precedence.assignment →
      Precedence.ofKind (kindAt rest) = 0 →
      Phrase (.expression Precedence.assignment) (t :: ts) e rest → Standing level (t :: ts) e rest :=
    fun le none phrase => .of_grouped le (by decide) phrase (by rw [none]; decide)
  rw [Reader.named] at read
  split at read
  · rename_i equal
    obtain ⟨le, equal⟩ := Bool.and_eq_true_iff.mp equal
    cases ts with
    | nil => exact absurd equal (by decide)
    | cons u us =>
        simp only [Option.bind_eq_bind] at read
        obtain ⟨⟨value, vs⟩, found, read⟩ := Option.bind_eq_some_iff.mp read
        cases read
        obtain ⟨whole, none⟩ := ih.expression found
        exact assigned (of_decide_eq_true le) none (.assign name (eq_of_beq equal) whole)
  · split at read
    · rename_i op compound
      split at compound
      · rename_i le
        cases ts with
        | nil => exact absurd compound nofun
        | cons u us =>
            simp only [Option.bind_eq_bind] at read
            obtain ⟨⟨value, vs⟩, found, read⟩ := Option.bind_eq_some_iff.mp read
            cases read
            obtain ⟨whole, none⟩ := ih.expression found
            exact assigned (of_decide_eq_true le) none (.update name compound whole)
      · exact absurd compound nofun
    · cases read
      exact ⟨primary, Nat.le_trans bound (by decide), Nat.le_refl _, .read name,
        (stops_call _).tighter⟩

theorem sign_succ {t : Token} {value : Expression} (bound : level ≤ Precedence.unary)
    (signed : Phrase (.expression Precedence.unary) ts value rest →
      Phrase (.expression Precedence.unary) (t :: ts) e rest)
    (read : Reader.climb fuel Precedence.unary ts = some (value, rest)) :
    Standing level (t :: ts) e rest := by
  obtain ⟨phrase, less⟩ := ih.climb (by decide) (Nat.le_refl _) read
  exact .of_grouped bound (by decide) (signed phrase) less

theorem operand_succ (positive : 1 ≤ level) (bound : level ≤ Precedence.unary)
    (read : Reader.operand (fuel + 1) (decide (level ≤ Precedence.assignment)) ts = some (e, rest)) :
    Standing level ts e rest := by
  have single : ∀ {ts : List Token} {e : Expression}, Phrase (.expression primary) ts e rest →
      Standing level ts e rest := fun phrase =>
    ⟨primary, Nat.le_trans bound (by decide), Nat.le_refl _, phrase, (stops_call _).tighter⟩
  cases ts with
  | nil => exact absurd read nofun
  | cons t ts =>
      rw [Reader.operand] at read
      split at read
      · rename_i kind
        split at read
        · rename_i d readable
          cases read
          exact single (.number kind readable)
        · exact absurd read nofun
      · rename_i kind
        cases read
        exact single (.trueLiteral kind)
      · rename_i kind
        cases read
        exact single (.falseLiteral kind)
      · rename_i kind
        simp only [Option.bind_eq_bind] at read
        obtain ⟨⟨value, us⟩, found, read⟩ := Option.bind_eq_some_iff.mp read
        obtain ⟨vs, closed, read⟩ := Option.bind_eq_some_iff.mp read
        cases read
        obtain ⟨u, rfl, closing⟩ := expect_eq closed
        exact single (.parentheses kind (ih.expression found).1 closing)
      · rename_i kind
        simp only [Option.bind_eq_bind] at read
        obtain ⟨⟨value, us⟩, found, read⟩ := Option.bind_eq_some_iff.mp read
        cases read
        exact ih.sign_succ bound (.negate kind) found
      · rename_i kind
        simp only [Option.bind_eq_bind] at read
        obtain ⟨⟨value, us⟩, found, read⟩ := Option.bind_eq_some_iff.mp read
        cases read
        exact ih.sign_succ bound (.not kind) found
      · rename_i kind
        exact ih.named positive bound kind read
      · exact absurd read nofun

theorem operators_succ (positive : 1 ≤ level) (bound : level ≤ Precedence.unary)
    (standing : Standing level ts left us)
    (read : Reader.operators (fuel + 1) level left us = some (e, rest)) :
    Phrase (.expression level) ts e rest ∧ Precedence.ofKind (kindAt rest) < level := by
  rw [Reader.operators] at read
  split at read
  · rename_i binds
    simp only [Option.bind_eq_bind] at read
    obtain ⟨⟨joined, vs⟩, found, read⟩ := Option.bind_eq_some_iff.mp read
    exact ih.operators positive bound (ih.operator positive binds standing found) read
  · rename_i loose
    cases read
    exact ⟨standing.phrase positive, Nat.lt_of_not_le loose⟩

theorem call_succ {t : Token} (kind : t.kind = .leftParen) (bound : level ≤ Precedence.call)
    (standing : Standing level ts left (t :: us))
    (read : Reader.operator (fuel + 1) left (t :: us) = some (e, rest)) :
    Standing level ts e rest := by
  obtain ⟨other, le, top, phrase, stops⟩ := standing
  have callee := phrase.loosen (by decide : 1 ≤ Precedence.call)
    (by have := stops.loose; rwa [kindAt, kind] at this) top
  have result : Phrase (.expression Precedence.call) ts e rest := by
    simp only [Reader.operator, kind, Option.bind_eq_bind] at read
    split at read
    · rw [Option.bind_some] at read
      obtain ⟨vs, closed, read⟩ := Option.bind_eq_some_iff.mp read
      cases read
      obtain ⟨u, rfl, closing⟩ := expect_eq closed
      exact .callNone callee kind closing
    · obtain ⟨⟨args, vs⟩, listed, read⟩ := Option.bind_eq_some_iff.mp read
      obtain ⟨ws, closed, read⟩ := Option.bind_eq_some_iff.mp read
      cases read
      obtain ⟨u, rfl, closing⟩ := expect_eq closed
      exact .call callee kind (ih.arguments listed) closing
  exact ⟨Precedence.call, bound, by decide, result, stops_call _⟩

theorem operator_succ (positive : 1 ≤ level) (binds : level ≤ Precedence.ofKind (kindAt us))
    (standing : Standing level ts left us)
    (read : Reader.operator (fuel + 1) left us = some (e, rest)) : Standing level ts e rest := by
  cases us with
  | nil => exact absurd read nofun
  | cons t us =>
      rw [kindAt] at binds
      by_cases isCall : t.kind = .leftParen
      · rw [isCall] at binds
        exact ih.call_succ isCall binds standing read
      by_cases isAnd : t.kind = .and
      · rw [operator_and left isAnd] at read
        obtain ⟨⟨right, vs⟩, found, read⟩ := Option.bind_eq_some_iff.mp read
        cases read
        rw [isAnd] at binds
        obtain ⟨phrase, less⟩ := ih.climb (by decide) (by decide) found
        have first := standing.split (by rw [isAnd]; rfl) (.inr (.inl rfl))
        exact .of_grouped binds (by decide) (.and first isAnd phrase) less
      by_cases isOr : t.kind = .or
      · rw [operator_or left isOr] at read
        obtain ⟨⟨right, vs⟩, found, read⟩ := Option.bind_eq_some_iff.mp read
        cases read
        rw [isOr] at binds
        obtain ⟨phrase, less⟩ := ih.climb (by decide) (by decide) found
        have first := standing.split (by rw [isOr]; rfl) (.inl rfl)
        exact .of_grouped binds (by decide) (.or first isOr phrase) less
      obtain ⟨op, operator⟩ := operator_of_binding (Nat.le_trans positive binds) isCall isAnd isOr
      have between := between_of_operator operator
      rw [operator_binary left operator] at read
      obtain ⟨⟨right, vs⟩, found, read⟩ := Option.bind_eq_some_iff.mp read
      cases read
      rw [between.level] at binds
      by_cases isPower : op = .power
      · rw [if_pos isPower] at found
        subst isPower
        obtain ⟨phrase, less⟩ := ih.climb (by decide) (by decide) found
        have first := standing.split between.level (.inr (.inr rfl))
        exact .of_grouped binds (by decide) (.power first (starStar_of_power operator) phrase) less
      · rw [if_neg isPower] at found
        have strong := level_left isPower
        have weak := level_pos op
        obtain ⟨phrase, less⟩ := ih.climb (Nat.succ_pos _)
          (Nat.le_trans strong.2 (by decide)) found
        obtain ⟨other, le, top, whole, stops⟩ := standing
        have loose := stops.loose
        rw [kindAt, between.level] at loose
        have first := whole.loosen (Nat.le_trans (by decide) weak.1) loose top
        exact ⟨op.level, binds, Nat.le_trans weak.2 (by decide), .binary first operator isPower phrase,
          Nat.le_of_lt_succ less, fun grouped => absurd grouped strong.1⟩

theorem arguments_succ {args : List Expression}
    (read : Reader.arguments (fuel + 1) ts = some (args, rest)) :
    Phrase .arguments ts args rest := by
  rw [Reader.arguments] at read
  simp only [Option.bind_eq_bind] at read
  obtain ⟨⟨first, us⟩, found, read⟩ := Option.bind_eq_some_iff.mp read
  obtain ⟨whole, -⟩ := ih.expression found
  dsimp only at read
  split at read
  · rename_i comma
    cases us with
    | nil => exact absurd comma (by decide)
    | cons t us =>
        obtain ⟨⟨others, vs⟩, listed, read⟩ := Option.bind_eq_some_iff.mp read
        cases read
        exact .arguments whole (eq_of_beq comma) (ih.arguments listed)
  · cases read
    exact .argument whole

end PhrasesRead

theorem phrasesRead (fuel : Nat) : PhrasesRead fuel := by
  induction fuel with
  | zero =>
      exact {
        expression := nofun
        climb := fun _ _ => nofun
        operand := fun _ _ => nofun
        named := fun _ _ _ => nofun
        operators := fun _ _ _ => nofun
        operator := fun _ _ _ => nofun
        arguments := nofun }
  | succ fuel ih =>
      exact {
        expression := fun read => by
          obtain ⟨phrase, less⟩ := ih.climb (Nat.le_refl 1) (by decide) read
          exact ⟨phrase, Nat.lt_one_iff.mp less⟩
        climb := ih.climb_succ
        operand := ih.operand_succ
        named := fun _ => ih.named_succ
        operators := ih.operators_succ
        operator := ih.operator_succ
        arguments := ih.arguments_succ }

end Reckoner.Script.Grammar
