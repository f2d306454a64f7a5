import GraphQL.Parser.Error
import GraphQL.Token.Lexer

/-!
Reading from a list of tokens. A parser answers with a value and the tokens left, and on failure
with the error and the tokens left, so that reading can go on from where it failed. That a parser
never returns is kept as a failure of its own.
-/

namespace GraphQL

/-- The tokens not yet read, and where the file ends. -/
structure Tokens where
  pending : List (Located Token)
  stop : Position
deriving Repr

abbrev Parser := EStateM Parser.Failure Tokens

namespace Tokens

def ofSource (s : Source) : Except (Located ParseError) Tokens :=
  let outcome := Lexer.run s
  match outcome.ending with
  | .ok stop => .ok ⟨outcome.tokens, stop⟩
  | .error failure => .error (failure.error.map ParseError.lexer)

/-- The tokens of a text. -/
def ofText (t : Text) : Except (Located ParseError) Tokens := ofSource (Source.ofText t)

/-- The next token; at the end, the token that says so. -/
def front (s : Tokens) : Located Token :=
  match s.pending with
  | [] => ⟨.endOfFile, .empty s.stop⟩
  | t :: _ => t

end Tokens

namespace Parser

variable {α : Type}

/-- The next token, which stays. -/
def peek : Parser (Located Token) := fun s => .ok s.front s

/-- Fails at a span. -/
def failAt (error : ParseError) (span : Span) : Parser α := throw (.refused ⟨error, span⟩)

/-- Never returns. -/
def endless : Parser α := throw .endless

def next : Parser (Located Token) := fun s =>
  match s.pending with
  | [] => .error (.refused ⟨.unexpectedEndOfFile, .empty s.stop⟩) s
  | t :: rest => .ok t { s with pending := rest }

/-- Takes the next token as one that does not fit. -/
def unexpected : Parser α := do
  let t ← next
  failAt (.ofToken t.value) t.span

def expect (kind : Token.Kind) : Parser (Located Token) := do
  if (← peek).value.kind == kind then next else unexpected

/-- Takes the next token if it is of a kind. At the end of the file there has to be one. -/
def skip? (kind : Token.Kind) : Parser (Option (Located Token)) := fun s =>
  match s.pending with
  | [] => .error (.refused ⟨.unexpectedEndOfFile, .empty s.stop⟩) s
  | t :: rest =>
    if t.value.kind == kind then .ok (some t) { s with pending := rest } else .ok none s

def mark (p : Punctuator) : Parser (Located Token) := expect (.mark p)

def name : Parser (Located Text) := do
  let t ← next
  match t.value with
  | .name text => return ⟨text, t.span⟩
  | _ => failAt (.ofToken t.value) t.span

def comes (p : Punctuator) : Parser Bool := do
  return (← peek).value.kind == .mark p

def itemsUntil (closing : Token.Kind) (item : Parser α) :
    (fuel : Nat) → Parser (List α × Located Token)
  | 0 => unexpected
  | fuel + 1 => do
    match ← skip? closing with
    | some close => return ([], close)
    | none =>
      let a ← item
      let (rest, close) ← itemsUntil closing item fuel
      return (a :: rest, close)

/-- At least one item, up to a closing token. -/
def someUntil (closing : Token.Kind) (item : Parser α) (fuel : Nat) :
    Parser (List α × Located Token) := do
  let a ← item
  let (rest, close) ← itemsUntil closing item fuel
  return (a :: rest, close)

/-- Items between delimiters. -/
def delimited (opening closing : Token.Kind) (item : Parser α) (fuel : Nat) :
    Parser (Located (List α)) := do
  let first ← expect opening
  let (items, last) ← itemsUntil closing item fuel
  return ⟨items, ⟨first.span.start, last.span.stop⟩⟩

/-- At least one item between delimiters. -/
def delimitedSome (opening closing : Token.Kind) (item : Parser α) (fuel : Nat) :
    Parser (Located (List α)) := do
  let first ← expect opening
  let (items, last) ← someUntil closing item fuel
  return ⟨items, ⟨first.span.start, last.span.stop⟩⟩

/-- Runs a parser that is given fuel with enough of it: every step takes a token. -/
def fueled (p : Nat → Parser α) : Parser α := fun s => p (s.pending.length + 1) s

end Parser

end GraphQL
