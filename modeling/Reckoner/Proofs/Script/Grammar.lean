import Reckoner.Proofs.Script.Reader

/-!
The grammar of the script language: what stands between two places of the token list, and its tree.
It says nothing of where an `else` belongs; the tree that is meant is the one in which every `else`
belongs to the nearest `if`.
-/

namespace Reckoner

/-- The token as far as its kind goes: a number that cannot be read counts as zero. -/
def Token.formal (t : Token) : Token :=
  match t.kind, Decimal.parse t.lexeme with
  | .number, .error _ => { t with lexeme := "0" }
  | _, _ => t

def Token.Reads (t : Token) : Prop := t.kind = .number → ∃ d, Decimal.parse t.lexeme = .ok d

theorem Token.Reads.formal_eq {t : Token} (reads : t.Reads) : t.formal = t := by
  rw [formal]
  split
  · rename_i number unread
    obtain ⟨d, read⟩ := reads number
    rw [unread] at read
    cases read
  · rfl

namespace Script

open Compiler (Precedence)

namespace Grammar

def primary : Precedence := 11

end Grammar

def Operator.level : Operator → Precedence
  | .equal | .notEqual => 4
  | .greater | .greaterEqual | .less | .lessEqual => 5
  | .add | .subtract => 6
  | .multiply | .divide | .modulo => 7
  | .power => 8

namespace Grammar

inductive Part where
  | expression (level : Precedence)
  | arguments

abbrev Part.Tree : Part → Type
  | .expression _ => Expression
  | .arguments => List Expression

/-- A phrase begins where the first tokens begin and ends where the second ones do. Assignments,
connectives and powers group to the right, all other operators to the left. -/
inductive Phrase : (part : Part) → List Token → part.Tree → List Token → Prop where
  | tighter {level : Precedence} {ts rest : List Token} {e : Expression} (positive : 1 ≤ level)
    (loose : level < primary) (inner : Phrase (.expression (level + 1)) ts e rest) :
    Phrase (.expression level) ts e rest
  | assign {t u : Token} {ts rest : List Token} {e : Expression} (name : t.kind = .identifier)
    (equal : u.kind = .equal) (value : Phrase (.expression Precedence.assignment) ts e rest) :
    Phrase (.expression Precedence.assignment) (t :: u :: ts) (Expression.assign t.lexeme e) rest
  | update {t u : Token} {ts rest : List Token} {op : Operator} {e : Expression}
    (name : t.kind = .identifier) (compound : Operator.ofAssignment? u.kind = some op)
    (value : Phrase (.expression Precedence.assignment) ts e rest) :
    Phrase (.expression Precedence.assignment) (t :: u :: ts) (Expression.update t.lexeme op e) rest
  | or {t : Token} {ts us rest : List Token} {a b : Expression}
    (left : Phrase (.expression Precedence.and) ts a (t :: us)) (connective : t.kind = .or)
    (right : Phrase (.expression Precedence.or) us b rest) :
    Phrase (.expression Precedence.or) ts (Expression.or a b) rest
  | and {t : Token} {ts us rest : List Token} {a b : Expression}
    (left : Phrase (.expression Precedence.equality) ts a (t :: us)) (connective : t.kind = .and)
    (right : Phrase (.expression Precedence.and) us b rest) :
    Phrase (.expression Precedence.and) ts (Expression.and a b) rest
  | binary {t : Token} {ts us rest : List Token} {op : Operator} {a b : Expression}
    (left : Phrase (.expression op.level) ts a (t :: us))
    (operator : Operator.ofKind? t.kind = some op) (notPower : op ≠ .power)
    (right : Phrase (.expression (op.level + 1)) us b rest) :
    Phrase (.expression op.level) ts (Expression.binary op a b) rest
  | power {t : Token} {ts us rest : List Token} {a b : Expression}
    (left : Phrase (.expression Precedence.unary) ts a (t :: us)) (operator : t.kind = .starStar)
    (right : Phrase (.expression Precedence.exponent) us b rest) :
    Phrase (.expression Precedence.exponent) ts (Expression.binary .power a b) rest
  | negate {t : Token} {ts rest : List Token} {e : Expression} (sign : t.kind = .minus)
    (operand : Phrase (.expression Precedence.unary) ts e rest) :
    Phrase (.expression Precedence.unary) (t :: ts) (Expression.negate e) rest
  | not {t : Token} {ts rest : List Token} {e : Expression} (sign : t.kind = .bang)
    (operand : Phrase (.expression Precedence.unary) ts e rest) :
    Phrase (.expression Precedence.unary) (t :: ts) (Expression.not e) rest
  | call {t u : Token} {ts us rest : List Token} {f : Expression} {args : List Expression}
    (callee : Phrase (.expression Precedence.call) ts f (t :: us)) (opening : t.kind = .leftParen)
    (given : Phrase .arguments us args (u :: rest)) (closing : u.kind = .rightParen) :
    Phrase (.expression Precedence.call) ts (Expression.call f args) rest
  | callNone {t u : Token} {ts rest : List Token} {f : Expression}
    (callee : Phrase (.expression Precedence.call) ts f (t :: u :: rest))
    (opening : t.kind = .leftParen) (closing : u.kind = .rightParen) :
    Phrase (.expression Precedence.call) ts (Expression.call f []) rest
  | number {t : Token} {ts : List Token} {d : Decimal} (literal : t.kind = .number)
    (readable : Decimal.parse t.lexeme = .ok d) :
    Phrase (.expression primary) (t :: ts) (Expression.number d) ts
  | trueLiteral {t : Token} {ts : List Token} (literal : t.kind = .true) :
    Phrase (.expression primary) (t :: ts) (Expression.bool Bool.true) ts
  | falseLiteral {t : Token} {ts : List Token} (literal : t.kind = .false) :
    Phrase (.expression primary) (t :: ts) (Expression.bool Bool.false) ts
  | read {t : Token} {ts : List Token} (name : t.kind = .identifier) :
    Phrase (.expression primary) (t :: ts) (Expression.read t.lexeme) ts
  | parentheses {t u : Token} {ts rest : List Token} {e : Expression}
    (opening : t.kind = .leftParen)
    (inner : Phrase (.expression Precedence.assignment) ts e (u :: rest))
    (closing : u.kind = .rightParen) : Phrase (.expression primary) (t :: ts) e rest
  | argument {ts rest : List Token} {e : Expression}
    (only : Phrase (.expression Precedence.assignment) ts e rest) : Phrase .arguments ts [e] rest
  | arguments {t : Token} {ts us rest : List Token} {e : Expression} {args : List Expression}
    (first : Phrase (.expression Precedence.assignment) ts e (t :: us)) (comma : t.kind = .comma)
    (others : Phrase .arguments us args rest) : Phrase .arguments ts (e :: args) rest

abbrev Whole (ts : List Token) (e : Expression) (rest : List Token) : Prop :=
  Phrase (.expression Precedence.assignment) ts e rest

inductive Ended (kind : Kind) : List Token → Expression → List Token → Prop where
  | intro {u : Token} {ts rest : List Token} {e : Expression} (value : Whole ts e (u :: rest))
    (closing : u.kind = kind) : Ended kind ts e rest

inductive Clause (kind : Kind) : List Token → Option Expression → List Token → Prop where
  | missing {u : Token} {rest : List Token} (closing : u.kind = kind) :
    Clause kind (u :: rest) none rest
  | present {ts rest : List Token} {e : Expression} (value : Ended kind ts e rest) :
    Clause kind ts (some e) rest

inductive Variable : List Token → String → Option Expression → List Token → Prop where
  | plain {t u : Token} {rest : List Token} (name : t.kind = .identifier)
    (closing : u.kind = .semicolon) : Variable (t :: u :: rest) t.lexeme none rest
  | initialized {t u : Token} {ts rest : List Token} {e : Expression} (name : t.kind = .identifier)
    (equal : u.kind = .equal) (value : Ended .semicolon ts e rest) :
    Variable (t :: u :: ts) t.lexeme (some e) rest

inductive Opening : List Token → Initializer → List Token → Prop where
  | missing {u : Token} {rest : List Token} (closing : u.kind = .semicolon) :
    Opening (u :: rest) .none rest
  | var {t : Token} {ts rest : List Token} {name : String} {value : Option Expression}
    (keyword : t.kind = .var) (declared : Variable ts name value rest) :
    Opening (t :: ts) (.var name value) rest
  | expression {ts rest : List Token} {e : Expression} (value : Ended .semicolon ts e rest) :
    Opening ts (.expression e) rest

inductive Names : List Token → List String → List Token → Prop where
  | one {t : Token} {rest : List Token} (name : t.kind = .identifier) :
    Names (t :: rest) [t.lexeme] rest
  | more {t u : Token} {ts rest : List Token} {names : List String} (name : t.kind = .identifier)
    (comma : u.kind = .comma) (others : Names ts names rest) :
    Names (t :: u :: ts) (t.lexeme :: names) rest

inductive Parameters : List Token → List String → List Token → Prop where
  | empty {t u : Token} {rest : List Token} (opening : t.kind = .leftParen)
    (closing : u.kind = .rightParen) : Parameters (t :: u :: rest) [] rest
  | full {t u : Token} {ts rest : List Token} {names : List String} (opening : t.kind = .leftParen)
    (listed : Names ts names (u :: rest)) (closing : u.kind = .rightParen) :
    Parameters (t :: ts) names rest

/-- What is built of statements. Functions are numbered from the first number up to the second. -/
inductive Category where
  | statement (first next : Nat)
  | declaration (first next : Nat)
  | declarations (first next : Nat)
  | function (first next : Nat)

abbrev Category.Tree : Category → Type
  | .statement _ _ => Statement
  | .declaration _ _ => Declaration
  | .declarations _ _ => List Declaration
  | .function _ _ => Function

/-- What is derived begins where the first tokens begin and ends where the second ones do. A function
begins behind `fn`. -/
inductive Derives : (category : Category) → List Token → category.Tree → List Token → Prop where
  | print {n : Nat} {t : Token} {ts rest : List Token} {e : Expression} (keyword : t.kind = .print)
    (value : Ended .semicolon ts e rest) :
    Derives (.statement n n) (t :: ts) (Statement.print e) rest
  | expression {n : Nat} {ts rest : List Token} {e : Expression}
    (value : Ended .semicolon ts e rest) : Derives (.statement n n) ts (Statement.expression e) rest
  | ifOnly {n m : Nat} {t : Token} {ts us rest : List Token} {c : Expression} {s : Statement}
    (keyword : t.kind = .if) (condition : Ended .colon ts c us)
    (consequent : Derives (.statement n m) us s rest) :
    Derives (.statement n m) (t :: ts) (Statement.ifElse c s .empty) rest
  | ifElse {n m k : Nat} {t u v : Token} {ts us vs rest : List Token} {c : Expression}
    {s a : Statement} (keyword : t.kind = .if) (condition : Ended .colon ts c us)
    (consequent : Derives (.statement n m) us s (u :: v :: vs)) (otherwise : u.kind = .else)
    (colon : v.kind = .colon) (alternative : Derives (.statement m k) vs a rest) :
    Derives (.statement n k) (t :: ts) (Statement.ifElse c s a) rest
  | while {n m : Nat} {t : Token} {ts us rest : List Token} {c : Expression} {s : Statement}
    (keyword : t.kind = .while) (condition : Ended .colon ts c us)
    (body : Derives (.statement n m) us s rest) :
    Derives (.statement n m) (t :: ts) (Statement.while c s) rest
  | for {n m : Nat} {t : Token} {ts us vs ws rest : List Token} {first : Initializer}
    {condition step : Option Expression} {s : Statement} (keyword : t.kind = .for)
    (opening : Opening ts first us) (tests : Clause .semicolon us condition vs)
    (steps : Clause .colon vs step ws) (body : Derives (.statement n m) ws s rest) :
    Derives (.statement n m) (t :: ts) (Statement.for first condition step s) rest
  | break {n : Nat} {t u : Token} {rest : List Token} (keyword : t.kind = .break)
    (closing : u.kind = .semicolon) : Derives (.statement n n) (t :: u :: rest) Statement.break rest
  | continue {n : Nat} {t u : Token} {rest : List Token} (keyword : t.kind = .continue)
    (closing : u.kind = .semicolon) :
    Derives (.statement n n) (t :: u :: rest) Statement.continue rest
  | return {n : Nat} {t : Token} {ts rest : List Token} {value : Option Expression}
    (keyword : t.kind = .return) (result : Clause .semicolon ts value rest) :
    Derives (.statement n n) (t :: ts) (Statement.return value) rest
  | block {n m : Nat} {t u : Token} {ts rest : List Token} {body : List Declaration}
    (opening : t.kind = .leftBrace) (inner : Derives (.declarations n m) ts body (u :: rest))
    (closing : u.kind = .rightBrace) :
    Derives (.statement n m) (t :: ts) (Statement.block body) rest
  | statement {n m : Nat} {ts rest : List Token} {s : Statement}
    (inner : Derives (.statement n m) ts s rest) :
    Derives (.declaration n m) ts (Declaration.statement s) rest
  | var {n : Nat} {t : Token} {ts rest : List Token} {name : String} {value : Option Expression}
    (keyword : t.kind = .var) (declared : Variable ts name value rest) :
    Derives (.declaration n n) (t :: ts) (Declaration.var name value) rest
  | fn {n m : Nat} {t : Token} {ts rest : List Token} {f : Function} (keyword : t.kind = .fn)
    (declared : Derives (.function n m) ts f rest) :
    Derives (.declaration n m) (t :: ts) (Declaration.function f) rest
  | short {n : Nat} {t u : Token} {ts us rest : List Token} {names : List String} {e : Expression}
    (name : t.kind = .identifier) (parameters : Parameters ts names (u :: us))
    (equal : u.kind = .equal) (value : Ended .semicolon us e rest) :
    Derives (.function n (n + 1)) (t :: ts) (Function.mk n t.lexeme names [] (some e)) rest
  | long {n m : Nat} {t u v : Token} {ts us rest : List Token} {names : List String}
    {body : List Declaration} (name : t.kind = .identifier)
    (parameters : Parameters ts names (u :: us)) (opening : u.kind = .leftBrace)
    (inner : Derives (.declarations (n + 1) m) us body (v :: rest)) (closing : v.kind = .rightBrace) :
    Derives (.function n m) (t :: ts) (Function.mk n t.lexeme names body none) rest
  | nil {n : Nat} {ts : List Token} : Derives (.declarations n n) ts ([] : List Declaration) ts
  | cons {n m k : Nat} {ts us rest : List Token} {d : Declaration} {body : List Declaration}
    (first : Derives (.declaration n m) ts d us)
    (others : Derives (.declarations m k) us body rest) :
    Derives (.declarations n k) ts (d :: body) rest

/-- The tokens are a script with the given declarations, and the end token. -/
def Sentence (ts : List Token) (body : List Declaration) : Prop :=
  ∃ next t, Derives (.declarations 1 next) ts body [t] ∧ t.kind = .eof

/-- The tokens have the form of a script with the given declarations, whatever is written in numbers. -/
def Formed (ts : List Token) (body : List Declaration) : Prop := Sentence (ts.map Token.formal) body

def SingleExpression (ts : List Token) (e : Expression) : Prop := ∃ t, Whole ts e [t] ∧ t.kind = .eof

end Grammar

/-! Where an `else` belongs -/

def Statement.isEmpty : Statement → Bool
  | .empty => true
  | _ => false

/-- Whether an `else` right behind the statement could still belong to an `if` in it. -/
def Statement.dangles : Statement → Bool
  | .ifElse _ _ t => t.isEmpty || t.dangles
  | .while _ s => s.dangles
  | .for _ _ _ s => s.dangles
  | _ => false

mutual

def Statement.Nearest : Statement → Prop
  | .ifElse _ s t => s.Nearest ∧ t.Nearest ∧ (t.isEmpty = false → s.dangles = false)
  | .while _ s => s.Nearest
  | .for _ _ _ s => s.Nearest
  | .block body => NearestAll body
  | _ => True

def Declaration.Nearest : Declaration → Prop
  | .function f => f.Nearest
  | .statement s => s.Nearest
  | .var _ _ => True

def Function.Nearest : Function → Prop
  | ⟨_, _, _, body, _⟩ => NearestAll body

def NearestAll : List Declaration → Prop
  | [] => True
  | d :: rest => d.Nearest ∧ NearestAll rest

end

end Script

end Reckoner
