import GraphQL.Source.Position
import GraphQL.Value

/-!
Errors of fields: what a resolver reports, and where in the document and in the response it
happened.
-/

namespace GraphQL

inductive PathSegment where
  | key (name : Text)
  | index (i : Nat)
deriving DecidableEq, Repr

namespace PathSegment

/-- A segment as shown. -/
def toText : PathSegment → Text
  | key name => name
  | index i => Text.ofNat i

/-- Keys come before indices. -/
instance : Ord PathSegment where
  compare
    | key a, key b => compare a b
    | key _, index _ => .lt
    | index _, key _ => .gt
    | index i, index j => compare i j

end PathSegment

/-- A way into a response, from the outside in. -/
abbrev ResponsePath := List PathSegment

/-- The segments with dots between them. There is no dot as long as nothing stands before it. -/
def ResponsePath.toText (path : ResponsePath) : Text :=
  Text.chain (lit ".") (path.map PathSegment.toText)

/-- Why a field fails. The extensions are handed on to the client. -/
structure FieldError where
  message : Text
  extensions : Value

namespace FieldError

/-- An error with a message, of which only what stands before the first NUL counts. -/
def of (message : Text) (extensions : Value) : FieldError := ⟨message.untilNul, extensions⟩

/-- An error with nothing but a message. -/
def ofText (message : Text) : FieldError := of message .null

end FieldError

/-- An error with its place in the document and in the response. -/
structure ExecutionError where
  location : Position
  path : ResponsePath
  error : FieldError

namespace ExecutionError

def message (e : ExecutionError) : Text := e.error.message

/-- Errors are ordered by place in the document, then path, then message. -/
instance : Ord ExecutionError where
  compare a b := (compare a.location b.location).then
    ((compare a.path b.path).then (compare a.message b.message))

/-- Errors in order. -/
def sort (errors : List ExecutionError) : List ExecutionError :=
  errors.mergeSort fun a b => (compare a b).isLE

/-- The message, the place counted from zero, and the path if there is any. -/
def toText (e : ExecutionError) : Text :=
  e.message ++ lit " at " ++ e.location.toText ++
    if e.path.isEmpty then [] else lit " (" ++ e.path.toText ++ lit ")"

end ExecutionError

/-- The way from an operation to the place that is being resolved, with the place of its innermost
field in the document, or that of the operation at the root. -/
structure FieldPath where
  location : Position
  segments : ResponsePath

namespace FieldPath

def root (location : Position) : FieldPath := ⟨location, []⟩

def field (p : FieldPath) (responseKey : Text) (location : Position) : FieldPath :=
  ⟨location, p.segments ++ [.key responseKey]⟩

/-- The way to an item of a list, which is in the place of its field. -/
def index (p : FieldPath) (i : Nat) : FieldPath := ⟨p.location, p.segments ++ [.index i]⟩

end FieldPath

end GraphQL
