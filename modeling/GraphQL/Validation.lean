import GraphQL.Document
import GraphQL.Schema

/-!
Validation: rules look at a whole document and report what they find; the reports are put in order
when all rules have run.
-/

namespace GraphQL

/-- What a rule reports, with the places it is about. -/
structure RuleError where
  message : Text
  locations : List Position
deriving DecidableEq, Repr

namespace RuleError

/-- Reports are ordered by their places, then by message. -/
instance : Ord RuleError where
  compare a b := (compare a.locations b.locations).then (compare a.message b.message)

/-- The message and the places, counted from zero. -/
def toText (e : RuleError) : Text :=
  e.message ++ e.locations.flatMap fun p => lit " at " ++ p.toText

end RuleError

/-- A rule. It may ask what the rules before it reported. -/
structure Rule where
  name : Text
  check : Schema → Document → (reported : List RuleError) → List RuleError

/-- Rules in the order they run. -/
abbrev Validator := List Rule

namespace Validator

/-- What the rules report, one rule after another. -/
def reports (v : Validator) (s : Schema) (doc : Document) : List RuleError :=
  v.foldl (fun reported rule => reported ++ rule.check s doc reported) []

/-- What the rules report, in order. -/
def validate (v : Validator) (s : Schema) (doc : Document) : List RuleError :=
  (v.reports s doc).mergeSort fun a b => (compare a b).isLE

def isValid (v : Validator) (s : Schema) (doc : Document) : Bool := (v.validate s doc).isEmpty

end Validator

end GraphQL
