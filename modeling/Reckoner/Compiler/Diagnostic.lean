import Reckoner.Text.Columns
import Reckoner.Token.Basic

/-!
What the compiler has to say about a source it does not accept.
-/

namespace Reckoner

inductive Complaint where
  | unexpectedCharacter
  | expectExpression
  | expectEndOfExpression
  | expectParenAfterExpression
  | expectParenAfterArguments
  | expectParenAfterName
  | expectParenAfterParameters
  | expectBraceAfterBlock
  | expectBraceBeforeBody
  | expectVariableName
  | expectFunctionName
  | expectParameterName
  | expectSemicolonAfterVariable
  | expectSemicolonAfterFunction
  | expectSemicolonAfterPrint
  | expectSemicolonAfterExpression
  | expectSemicolonAfterCondition
  | expectSemicolonAfterBreak
  | expectSemicolonAfterContinue
  | expectSemicolonAfterReturn
  | expectColonAfterCondition
  | expectColonAfterElse
  | expectColonAfterClauses
  | invalidTarget
  | invalidNumber
  | redeclared
  | ownInitializer
  | breakOutsideLoop
  | continueOutsideLoop
  | returnOutsideFunction
  | tooManyConstants
  | tooManyLocals
  | tooManyArguments
  | tooManyParameters
  | jumpTooFar
  | loopTooLarge
  deriving Repr, DecidableEq, Inhabited

def Complaint.message : Complaint → String
  | .unexpectedCharacter => "Unexpected character"
  | .expectExpression => "Expect expression"
  | .expectEndOfExpression => "Expect end of expression"
  | .expectParenAfterExpression => "Expect ')' after expression"
  | .expectParenAfterArguments => "Expect ')' after arguments"
  | .expectParenAfterName => "Expect '(' after function name"
  | .expectParenAfterParameters => "Expect ')' after parameters"
  | .expectBraceAfterBlock => "Expect '\x7d' after block"
  | .expectBraceBeforeBody => "Expect '\x7b' before function body"
  | .expectVariableName => "Expect variable name"
  | .expectFunctionName => "Expect function name"
  | .expectParameterName => "Expect parameter name"
  | .expectSemicolonAfterVariable => "Expect ';' after variable declaration"
  | .expectSemicolonAfterFunction => "Expect ';' after function expression"
  | .expectSemicolonAfterPrint => "Expect ';' after value"
  | .expectSemicolonAfterExpression => "Expect ';' after expression"
  | .expectSemicolonAfterCondition => "Expect ';' after loop condition"
  | .expectSemicolonAfterBreak => "Expect ';' after 'break'"
  | .expectSemicolonAfterContinue => "Expect ';' after 'continue'"
  | .expectSemicolonAfterReturn => "Expect ';' after return value"
  | .expectColonAfterCondition => "Expect ':' after condition"
  | .expectColonAfterElse => "Expect ':' after 'else'"
  | .expectColonAfterClauses => "Expect ':' after for clauses"
  | .invalidTarget => "Invalid assignment target"
  | .invalidNumber => "Invalid number literal"
  | .redeclared => "Already a variable with this name in this scope"
  | .ownInitializer => "Can't read local variable in its own initializer"
  | .breakOutsideLoop => "Can't use 'break' outside of a loop"
  | .continueOutsideLoop => "Can't use 'continue' outside of a loop"
  | .returnOutsideFunction => "Can't return from top-level code"
  | .tooManyConstants => "Too many constants in one chunk"
  | .tooManyLocals => "Too many locals in function"
  | .tooManyArguments => "Can't have more than 255 arguments"
  | .tooManyParameters => "Can't have more than 255 parameters"
  | .jumpTooFar => "Too much code to jump over"
  | .loopTooLarge => "Loop body too large"

inductive Place where
  | atEnd
  | atToken (lexeme : String)
  | unplaced
  deriving Repr, DecidableEq, Inhabited

def Place.text : Place → String
  | .atEnd => "at end"
  | .atToken lexeme => "at '" ++ lexeme ++ "'"
  | .unplaced => ""

def Place.ofToken (t : Token) : Place :=
  match t.kind with
  | .eof => .atEnd
  | .error => .unplaced
  | _ => .atToken t.lexeme

structure Diagnostic where
  line : Nat
  place : Place
  complaint : Complaint
  deriving Repr, DecidableEq, Inhabited

def Diagnostic.text (d : Diagnostic) : String :=
  let line := "[line " ++ Text.natural d.line ++ "] Error"
  match d.place with
  | .unplaced => line ++ ": " ++ d.complaint.message
  | place => line ++ " " ++ place.text ++ ": " ++ d.complaint.message

def Diagnostic.report (ds : List Diagnostic) : String :=
  "\n".intercalate (ds.map Diagnostic.text)

end Reckoner
