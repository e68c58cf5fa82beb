/-!
The terms of the TOML format. Only texts, integers and truth values are kept; of the other values
it is enough to know that they are well formed.
-/

namespace Reckoner.Toml

inductive Scalar where
  | text (s : String)
  | integer (n : Int)
  | boolean (b : Bool)
  | real
  | moment
  deriving Repr, DecidableEq, Inhabited

abbrev Key := List String

inductive Term where
  | scalar (s : Scalar)
  | array (items : List Term)
  | table (pairs : List (Key × Term))
  deriving Repr, Inhabited

inductive Statement where
  | header (key : Key)
  | element (key : Key)
  | pair (key : Key) (value : Term)
  deriving Repr, Inhabited

def isBlank (c : Char) : Bool := c == ' ' || c == '\t'

def isBreak (c : Char) : Bool := c == '\n' || c == '\r'

def isLayout (c : Char) : Bool := isBlank c || isBreak c

def isBareKey (c : Char) : Bool := c.isAlphanum || c == '_' || c == '-'

end Reckoner.Toml
