import GraphQL.Source.Position

/-!
Tokens of the language, and the text a token is shown with.
-/

namespace GraphQL

/-- The two ways to write a string. -/
inductive StringStyle where
  | quoted
  | block
deriving DecidableEq, Repr

/-- A literal as written. Of a string it is the body between the quotes, escapes and all. -/
inductive Literal where
  | int (digits : Text)
  | float (digits : Text)
  | string (style : StringStyle) (body : Text)
deriving DecidableEq, Repr

/-- Tokens that are always spelled alike. -/
inductive Punctuator where
  | exclamationMark
  | dollar
  | parenOpen
  | parenClose
  | bracketOpen
  | bracketClose
  | curlyOpen
  | curlyClose
  | ellipsis
  | colon
  | equals
  | at
  | pipe
deriving DecidableEq, Repr

/-- A token. The end of the file counts as one. -/
inductive Token where
  | name (text : Text)
  | scalar (literal : Literal)
  | mark (punctuator : Punctuator)
  | endOfFile
deriving DecidableEq, Repr

/-- What a parser asks for: a class of tokens. -/
inductive Token.Kind where
  | name
  | scalar
  | mark (punctuator : Punctuator)
  | endOfFile
deriving DecidableEq, Repr

def Punctuator.toText : Punctuator → Text
  | .exclamationMark => lit "!"
  | .dollar => lit "$"
  | .parenOpen => lit "("
  | .parenClose => lit ")"
  | .bracketOpen => lit "["
  | .bracketClose => lit "]"
  | .curlyOpen => lit "\x7b"
  | .curlyClose => lit "\x7d"
  | .ellipsis => lit "..."
  | .colon => lit ":"
  | .equals => lit "="
  | .at => lit "@"
  | .pipe => lit "|"

/-- Puts a backslash before each quote and backslash of a string's body. -/
def Literal.quoteBody (body : Text) : Text :=
  body.flatMap fun b =>
    if b == Text.byte '\\' || b == Text.byte '"' then [Text.byte '\\', b] else [b]

/-- Numbers show as written. A quoted string shows with its quotes and backslashes escaped once
more, a block string between triple quotes. -/
def Literal.toText : Literal → Text
  | .int digits => digits
  | .float digits => digits
  | .string .quoted body => lit "\"" ++ quoteBody body ++ lit "\""
  | .string .block body => lit "\"\"\"" ++ body ++ lit "\"\"\""

namespace Token

def kind : Token → Kind
  | .name _ => .name
  | .scalar _ => .scalar
  | .mark p => .mark p
  | .endOfFile => .endOfFile

/-- The text a token is shown with. -/
def toText : Token → Text
  | .name text => text
  | .scalar literal => literal.toText
  | .mark p => p.toText
  | .endOfFile => lit "End of file"

end Token

end GraphQL
