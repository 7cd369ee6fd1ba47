import RuleLang.Token

/-!
Why reading fails. A cause says what is wrong at a place in the source; with the place it makes
a syntax error. Two more failures belong to single calls: a run of characters that is no number,
and a loop that runs out of the rounds allotted to it.
-/
namespace RuleLang

inductive Cause
  | illegalCharacter (c : Char)
  | unterminatedString
  | endOfInput
  | unexpected (lexeme : Lexeme)
  | expectedPunctuation (text : String)
  | expectedIdentifier
  | expectedOperator (choices : List String)
  | expectedSigned
  | unknownOperator (text : String)
  | missingParameters
  | duplicateParameter (name : String)
  | missingBody
  | nestingTooDeep
  | stated (message : String)
  deriving DecidableEq

namespace Cause

def message : Cause → String
  | illegalCharacter c => "Illegal character at this position: " ++ String.singleton c
  | unterminatedString => "Unterminated string literal"
  | endOfInput => "Unexpected end of input"
  | unexpected x => "Unexpected token: " ++ x.render
  | expectedPunctuation text => "Expected \"" ++ text ++ "\""
  | expectedIdentifier => "Expected an identifier"
  | expectedOperator choices => "Expected one of these operators: " ++ Text.quotedList choices
  | expectedSigned => "Expected signed expression"
  | unknownOperator text => "Unknown operator \"" ++ text ++ "\""
  | missingParameters => "Missing argument list for rule declaration"
  | duplicateParameter name => "Duplicate parameter \"" ++ name ++ "\" in rule declaration"
  | missingBody => "Missing body for rule declaration"
  | nestingTooDeep => "Nesting too deep"
  | stated message => message

end Cause

structure SyntaxError where
  position : Position
  cause : Cause
  deriving DecidableEq

namespace SyntaxError

def message (e : SyntaxError) : String := e.cause.message

def report (e : SyntaxError) : String := "at " ++ e.position.text ++ ": " ++ e.message

end SyntaxError

inductive Failure
  | malformed (error : SyntaxError)
  | notANumber (text : String)
  | exhausted
  deriving DecidableEq

namespace Failure

def message : Failure → String
  | malformed e => e.message
  | notANumber text => "could not convert string to float: " ++ Text.quoted text
  | exhausted => "out of rounds"

end Failure

end RuleLang
