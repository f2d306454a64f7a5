import GraphQL.Token
import GraphQL.Token.Error

/-!
Why a source does not parse, or has no end to its parsing.
-/

namespace GraphQL

inductive ParseError where
  /-- A token that does not fit, as it is shown. -/
  | unexpectedToken (shown : Text)
  | unexpectedEndOfFile
  /-- The source does not split into tokens, or a literal has a malformed escape. -/
  | lexer (error : LexError)
  /-- A scalar is missing or refuses a literal. -/
  | expectedScalar (message : Text)
deriving DecidableEq, Repr

namespace ParseError

def message : ParseError → Text
  | unexpectedToken shown => lit "Unexpected \"" ++ shown ++ lit "\""
  | unexpectedEndOfFile => lit "Unexpected end of input"
  | lexer error => error.message
  | expectedScalar text => text

/-- The error about a token that does not fit. -/
def ofToken (t : Token) : ParseError := unexpectedToken t.toText

end ParseError

/-- Why a parser does not answer with a value. -/
inductive Parser.Failure where
  /-- The source is refused. -/
  | refused (error : Located ParseError)
  /-- It does not answer at all, as it goes round in a circle of unions. -/
  | endless
deriving DecidableEq, Repr

inductive Rejection where
  | parse (error : ParseError)
  | lexer (error : LexError)
deriving DecidableEq, Repr

namespace Rejection

/-- A refusal as an error of parsing. -/
def toParseError : Rejection → ParseError
  | parse error => error
  | lexer error => .lexer error

end Rejection

end GraphQL
