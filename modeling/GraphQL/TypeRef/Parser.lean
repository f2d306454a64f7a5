import GraphQL.Parser.Tokens
import GraphQL.TypeRef

/-!
Parsing references to types: `Name` or `[T]`, either followed by `!`.
-/

namespace GraphQL.Parser

/-- Takes the mark of a type that refuses null, if it comes next. -/
def required (t : Located TypeRef) : Parser (Located TypeRef) := do
  if ← comes .exclamationMark then
    let bang ← mark .exclamationMark
    return ⟨t.value.required, ⟨t.span.start, bang.span.stop⟩⟩
  else return t

/-- A reference to a type, lists nested less than `fuel` deep. -/
def typeRefUpTo : (fuel : Nat) → Parser (Located TypeRef)
  | 0 => unexpected
  | fuel + 1 => do
    match ← skip? (.mark .bracketOpen) with
    | some first =>
      let element ← typeRefUpTo fuel
      let last ← mark .bracketClose
      required ⟨.list element.value none false, ⟨first.span.start, last.span.stop⟩⟩
    | none =>
      let n ← name
      required ⟨.named n.value false, n.span⟩

def typeRef : Parser (Located TypeRef) := fueled typeRefUpTo

end GraphQL.Parser
