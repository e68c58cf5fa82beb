/-!
Tokens of the script language. The kinds of reserved words have their spellings as names.
-/

namespace Reckoner

inductive Kind where
  | error
  | eof
  | leftParen
  | rightParen
  | leftBrace
  | rightBrace
  | comma
  | dot
  | colon
  | semicolon
  | minus
  | minusEqual
  | plus
  | plusEqual
  | slash
  | slashEqual
  | star
  | starEqual
  | starStar
  | starStarEqual
  | bang
  | bangEqual
  | equal
  | equalEqual
  | greater
  | greaterEqual
  | less
  | lessEqual
  | identifier
  | number
  | and
  | break
  | continue
  | else
  | false
  | fn
  | for
  | if
  | mod
  | or
  | print
  | return
  | true
  | var
  | while
  deriving Repr, DecidableEq, Inhabited

namespace Kind

def keywords : List Kind :=
  [.and, .break, .continue, .else, .false, .fn, .for, .if, .mod, .or, .print, .return, .true, .var,
    .while]

def all : List Kind :=
  [.error, .eof, .leftParen, .rightParen, .leftBrace, .rightBrace, .comma, .dot, .colon,
    .semicolon, .minus, .minusEqual, .plus, .plusEqual, .slash, .slashEqual, .star, .starEqual,
    .starStar, .starStarEqual, .bang, .bangEqual, .equal, .equalEqual, .greater, .greaterEqual,
    .less, .lessEqual, .identifier, .number] ++ keywords

def name : Kind → String
  | .error => "ERROR"
  | .eof => "EOF"
  | .leftParen => "("
  | .rightParen => ")"
  | .leftBrace => "\x7b"
  | .rightBrace => "\x7d"
  | .comma => ","
  | .dot => "."
  | .colon => ":"
  | .semicolon => ";"
  | .minus => "-"
  | .minusEqual => "-="
  | .plus => "+"
  | .plusEqual => "+="
  | .slash => "/"
  | .slashEqual => "/="
  | .star => "*"
  | .starEqual => "*="
  | .starStar => "**"
  | .starStarEqual => "**="
  | .bang => "!"
  | .bangEqual => "!="
  | .equal => "="
  | .equalEqual => "=="
  | .greater => ">"
  | .greaterEqual => ">="
  | .less => "<"
  | .lessEqual => "<="
  | .identifier => "IDENT"
  | .number => "NUMBER"
  | .and => "and"
  | .break => "break"
  | .continue => "continue"
  | .else => "else"
  | .false => "false"
  | .fn => "fn"
  | .for => "for"
  | .if => "if"
  | .mod => "mod"
  | .or => "or"
  | .print => "print"
  | .return => "return"
  | .true => "true"
  | .var => "var"
  | .while => "while"

def nameOf (number : Int) : String :=
  if number < 0 then "UNKNOWN" else ((all[number.toNat]?).map name).getD "UNKNOWN"

end Kind

/-- A token with its text, the line it stands on and the bytes it spans. An error token has
its message as text. -/
structure Token where
  kind : Kind
  lexeme : String
  line : Nat
  start : Nat
  stop : Nat
  deriving Repr, DecidableEq, Inhabited

end Reckoner
