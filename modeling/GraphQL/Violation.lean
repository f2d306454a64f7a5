import GraphQL.Text

/-!
Broken invariants: a schema that does not fit together, or a document that is executed although it
does not fit its schema. They end what is under way and are never part of a response.
-/

namespace GraphQL

/-- The operations that a document can hold. -/
inductive OperationType where
  | query
  | mutation
  | subscription
deriving DecidableEq, Repr

namespace OperationType

def toText : OperationType → Text
  | query => lit "query"
  | mutation => lit "mutation"
  | subscription => lit "subscription"

/-- The name of an operation's root in messages. -/
def title : OperationType → Text
  | query => lit "Query"
  | mutation => lit "Mutation"
  | subscription => lit "Subscription"

end OperationType

/-- Which invariant is broken. -/
inductive Violation where
  /-- A list or a wrapper was to be registered. -/
  | unnamedType
  /-- A wrapper has no kind. -/
  | kindOfNullable
  /-- A reserved name has no kind. -/
  | kindOfPlaceholder
  /-- A name was reserved and never defined; the reference shows it. -/
  | placeholderLeft (shown : Text)
  | rootMissing (operation : OperationType)
  | rootNotObject (operation : OperationType)
  | typeNotFound (name : Text)
  /-- Possible types were asked of a type that is neither an interface nor a union. -/
  | notAbstract
  /-- A `@skip` or `@include` has no Boolean condition. -/
  | conditionMissing (directive : Text)
  | fieldNotFound (field typeName : Text)
  | fragmentNotFound (name : Text)
  /-- Fragments spread one another without end. -/
  | endlessFragment (name : Text)
  /-- Unions list one another in a circle. -/
  | endlessUnion
  /-- The value has no resolver for the field. -/
  | fieldNotResolved (field typeName : Text)
  | noSelectionSet (typeName : Text)
  /-- The value has no stream for the field. -/
  | notSubscriptionField (field typeName : Text)
  /-- A list was resolved where the type is none. -/
  | notList (shown : Text)
  | noMutationType
  | noSubscriptionType
  | subscriptionExecuted
  | notSubscription
  /-- The label names the operation that has no value to start from. -/
  | noRootValue (label : Text)
  | contextType
  /-- Raised by a resolver. -/
  | raised (message : Text)
deriving DecidableEq, Repr

namespace Violation

def message : Violation → Text
  | unnamedType => lit "Only named types can be registered"
  | kindOfNullable => lit "Can't take type_kind of nullable meta type"
  | kindOfPlaceholder => lit "Can't take type_kind of placeholder meta type"
  | placeholderLeft shown => lit "Type " ++ shown ++ lit " is still a placeholder type"
  | rootMissing op => op.title ++ lit " type does not exist in schema"
  | rootNotObject op => op.title ++ lit " type is not an object"
  | typeNotFound name => lit "Type " ++ name ++ lit " not found in schema"
  | notAbstract => lit "Can't retrieve possible types from non-abstract meta type"
  | conditionMissing directive => lit "@" ++ directive ++ lit " needs a Boolean `if` argument"
  | fieldNotFound field typeName => lit "Field " ++ field ++ lit " not found on type " ++ typeName
  | fragmentNotFound name => lit "Fragment " ++ name ++ lit " could not be found"
  | endlessFragment name => lit "Fragment " ++ name ++ lit " spreads itself"
  | endlessUnion => lit "A union lists itself"
  | fieldNotResolved field typeName =>
    lit "Field " ++ field ++ lit " is not resolved by type " ++ typeName
  | noSelectionSet typeName =>
    lit "Type " ++ typeName ++ lit " was resolved without a selection set"
  | notSubscriptionField field typeName =>
    lit "Field " ++ field ++ lit " of type " ++ typeName ++ lit " is not a subscription field"
  | notList shown => lit "Current type " ++ shown ++ lit " is not a list type"
  | noMutationType => lit "No mutation type found"
  | noSubscriptionType => lit "No subscription type found"
  | subscriptionExecuted => lit "Subscriptions are resolved into streams"
  | notSubscription => lit "Only subscriptions resolve into streams"
  | noRootValue label => lit "No root value for " ++ label
  | contextType => lit "Execution context has an unexpected type"
  | raised text => text

end Violation

end GraphQL
