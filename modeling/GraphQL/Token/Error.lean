import GraphQL.Text.Utf8

/-!
What can be wrong with the characters of a source.
-/

namespace GraphQL

/-- Why a source does not split into tokens. -/
inductive LexError where
  /-- No token begins with this character. -/
  | unknownCharacter (code : Nat)
  /-- The token under way cannot go on with this character. -/
  | unexpectedCharacter (code : Nat)
  | unterminatedString
  | unterminatedBlockString
  | unknownCharacterInString (code : Nat)
  | unknownEscapeSequence (sequence : Text)
  | unexpectedEndOfFile
  | invalidNumber
deriving DecidableEq, Repr

namespace LexError

def message : LexError → Text
  | .unknownCharacter c => lit "Unknown character \"" ++ Utf8.display c ++ lit "\""
  | .unexpectedCharacter c => lit "Unexpected character \"" ++ Utf8.display c ++ lit "\""
  | .unterminatedString => lit "Unterminated string literal"
  | .unterminatedBlockString => lit "Unterminated block string literal"
  | .unknownCharacterInString c =>
    lit "Unknown character \"" ++ Utf8.display c ++ lit "\" in string literal"
  | .unknownEscapeSequence sequence =>
    lit "Unknown escape sequence \"" ++ sequence ++ lit "\" in string"
  | .unexpectedEndOfFile => lit "Unexpected end of input"
  | .invalidNumber => lit "Invalid number literal"

end LexError

end GraphQL
