import Reckoner.Compiler.Expression

/-!
Trees of the script language. Parentheses leave no trace in a tree, and a function knows how many
functions of the source were begun before it.
-/

namespace Reckoner.Script

inductive Operator where
  | add
  | subtract
  | multiply
  | divide
  | power
  | modulo
  | equal
  | notEqual
  | greater
  | greaterEqual
  | less
  | lessEqual
  deriving Repr, DecidableEq

inductive Expression where
  | number (value : Decimal)
  | bool (value : Bool)
  | read (name : String)
  | assign (name : String) (value : Expression)
  | update (name : String) (op : Operator) (value : Expression)
  | negate (operand : Expression)
  | not (operand : Expression)
  | binary (op : Operator) (left right : Expression)
  | and (left right : Expression)
  | or (left right : Expression)
  | call (callee : Expression) (arguments : List Expression)

inductive Initializer where
  | none
  | var (name : String) (value : Option Expression)
  | expression (value : Expression)

mutual

/-- A statement. The empty one stands for a missing `else`. -/
inductive Statement where
  | empty
  | print (value : Expression)
  | expression (value : Expression)
  | ifElse (condition : Expression) (consequent alternative : Statement)
  | while (condition : Expression) (body : Statement)
  | for (first : Initializer) (condition step : Option Expression) (body : Statement)
  | break
  | continue
  | return (value : Option Expression)
  | block (body : List Declaration)

inductive Declaration where
  | var (name : String) (value : Option Expression)
  | function (f : Function)
  | statement (s : Statement)

/-- A function, a script or a single expression. When the body runs to its end the result is the
value of an expression, or false. -/
structure Function where
  index : Nat
  name : String
  parameters : List String
  body : List Declaration
  result : Option Expression

end

namespace Operator

def ofKind? : Kind → Option Operator
  | .plus => some .add
  | .minus => some .subtract
  | .star => some .multiply
  | .slash => some .divide
  | .starStar => some .power
  | .mod => some .modulo
  | .equalEqual => some .equal
  | .bangEqual => some .notEqual
  | .greater => some .greater
  | .greaterEqual => some .greaterEqual
  | .less => some .less
  | .lessEqual => some .lessEqual
  | _ => none

def ofAssignment? : Kind → Option Operator
  | .plusEqual => some .add
  | .minusEqual => some .subtract
  | .starEqual => some .multiply
  | .slashEqual => some .divide
  | .starStarEqual => some .power
  | _ => none

end Operator

def Initializer.names : Initializer → List String
  | .var name _ => [name]
  | _ => []

/-- The locals a declaration adds to its scope. Outside all scopes it defines globals instead. -/
def Declaration.names (isGlobal : Bool) : Declaration → List String
  | .var name _ => if isGlobal then [] else [name]
  | .function f => if isGlobal then [] else [f.name]
  | .statement _ => []

def namesOf (isGlobal : Bool) : List Declaration → List String
  | [] => []
  | d :: rest => namesOf isGlobal rest ++ d.names isGlobal

mutual

def Statement.functions : Statement → List Function
  | .ifElse _ s t => s.functions ++ t.functions
  | .while _ s => s.functions
  | .for _ _ _ s => s.functions
  | .block body => functionsOf body
  | _ => []

def Declaration.functions : Declaration → List Function
  | .function f => [f]
  | .statement s => s.functions
  | .var _ _ => []

def functionsOf : List Declaration → List Function
  | [] => []
  | d :: rest => d.functions ++ functionsOf rest

end

/-- A function, those declared in it, those declared in them, and so on. -/
inductive Function.Contains (f : Function) : Function → Prop where
  | self : Contains f f
  | inner {g h : Function} (contained : Contains f g) (declared : h ∈ functionsOf g.body) :
    Contains f h

end Reckoner.Script
