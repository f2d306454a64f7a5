import GraphQL.Console
import GraphQL.Document
import GraphQL.Document.Parser
import GraphQL.Execution.Arguments
import GraphQL.Execution.Cursor
import GraphQL.Execution.Effects
import GraphQL.Execution.Error
import GraphQL.Execution.LookAhead
import GraphQL.Execution.Operation
import GraphQL.Execution.Plan
import GraphQL.Execution.Resolve
import GraphQL.Execution.Selections
import GraphQL.Execution.Subscription
import GraphQL.Fixture.Basic
import GraphQL.Fixture.Resolver
import GraphQL.Fixture.Schema
import GraphQL.Fixture.Validator
import GraphQL.InputValue
import GraphQL.InputValue.Parser
import GraphQL.Json
import GraphQL.Json.Document
import GraphQL.Json.Printer
import GraphQL.Json.Reader
import GraphQL.Json.Response
import GraphQL.Json.Schema
import GraphQL.Json.Value
import GraphQL.Keyed
import GraphQL.Number.Binary64
import GraphQL.Number.Decimal
import GraphQL.Parser.Error
import GraphQL.Parser.Tokens
import GraphQL.Proofs.Document.Blames
import GraphQL.Proofs.Document.Bracketed
import GraphQL.Proofs.Document.Constants
import GraphQL.Proofs.Document.Definitions
import GraphQL.Proofs.Document.Directives
import GraphQL.Proofs.Document.Exact
import GraphQL.Proofs.Document.Failures
import GraphQL.Proofs.Document.Hints
import GraphQL.Proofs.Document.LaidOut
import GraphQL.Proofs.Document.Layout
import GraphQL.Proofs.Document.Literals
import GraphQL.Proofs.Document.Misplaced
import GraphQL.Proofs.Document.Printing
import GraphQL.Proofs.Document.Rendering
import GraphQL.Proofs.Document.Selections
import GraphQL.Proofs.Document.Spans
import GraphQL.Proofs.Document.TypeTexts
import GraphQL.Proofs.Document.Variables
import GraphQL.Proofs.Errs
import GraphQL.Proofs.Execution.Ahead
import GraphQL.Proofs.Execution.ArgumentValues
import GraphQL.Proofs.Execution.Below
import GraphQL.Proofs.Execution.Coherence
import GraphQL.Proofs.Execution.Collected
import GraphQL.Proofs.Execution.Complete
import GraphQL.Proofs.Execution.Concurrency
import GraphQL.Proofs.Execution.Constants
import GraphQL.Proofs.Execution.Driven
import GraphQL.Proofs.Execution.Entity
import GraphQL.Proofs.Execution.ErrorOrder
import GraphQL.Proofs.Execution.ErrorPaths
import GraphQL.Proofs.Execution.Expansion
import GraphQL.Proofs.Execution.Flattening
import GraphQL.Proofs.Execution.Foresight
import GraphQL.Proofs.Execution.InTurn
import GraphQL.Proofs.Execution.Instance
import GraphQL.Proofs.Execution.Isolation
import GraphQL.Proofs.Execution.Jobs
import GraphQL.Proofs.Execution.KeyOrder
import GraphQL.Proofs.Execution.Leaves
import GraphQL.Proofs.Execution.Lists
import GraphQL.Proofs.Execution.Modes
import GraphQL.Proofs.Execution.NestedAhead
import GraphQL.Proofs.Execution.NullPropagation
import GraphQL.Proofs.Execution.Overlooked
import GraphQL.Proofs.Execution.Places
import GraphQL.Proofs.Execution.Plans
import GraphQL.Proofs.Execution.Probes
import GraphQL.Proofs.Execution.Process
import GraphQL.Proofs.Execution.Purity
import GraphQL.Proofs.Execution.Reached
import GraphQL.Proofs.Execution.Recording
import GraphQL.Proofs.Execution.Redeclared
import GraphQL.Proofs.Execution.Refusals
import GraphQL.Proofs.Execution.Requests
import GraphQL.Proofs.Execution.Runs
import GraphQL.Proofs.Execution.Schedules
import GraphQL.Proofs.Execution.Selected
import GraphQL.Proofs.Execution.Settled
import GraphQL.Proofs.Execution.Shape
import GraphQL.Proofs.Execution.Signatures
import GraphQL.Proofs.Execution.Streams
import GraphQL.Proofs.Execution.Traces
import GraphQL.Proofs.Execution.Transparency
import GraphQL.Proofs.Execution.TypeSafety
import GraphQL.Proofs.Execution.Violations
import GraphQL.Proofs.Keyed
import GraphQL.Proofs.Parser.Agreement
import GraphQL.Proofs.Parser.Blames
import GraphQL.Proofs.Parser.LeftToRight
import GraphQL.Proofs.Parser.Steps
import GraphQL.Proofs.Schema.Built
import GraphQL.Proofs.Schema.Definitions
import GraphQL.Proofs.Schema.Relations
import GraphQL.Proofs.Schema.Subtypes
import GraphQL.Proofs.Source.Chars
import GraphQL.Proofs.Source.Counting
import GraphQL.Proofs.Text.BlockString
import GraphQL.Proofs.Text.Characters
import GraphQL.Proofs.Text.Margin
import GraphQL.Proofs.Text.Offsets
import GraphQL.Proofs.Text.Utf8
import GraphQL.Proofs.Text.WellFormed
import GraphQL.Proofs.Token.Decoding
import GraphQL.Proofs.Token.Escapes
import GraphQL.Proofs.Token.Faults
import GraphQL.Proofs.Token.Ignored
import GraphQL.Proofs.Token.Lexeme
import GraphQL.Proofs.Token.NumberTokens
import GraphQL.Proofs.Token.Numbers
import GraphQL.Proofs.Token.Order
import GraphQL.Proofs.Token.Positions
import GraphQL.Proofs.Token.Reading
import GraphQL.Proofs.Token.Separators
import GraphQL.Proofs.Token.Strings
import GraphQL.Proofs.Token.Tiling
import GraphQL.Proofs.Validation.Checked
import GraphQL.Proofs.Validation.Cycles
import GraphQL.Proofs.Validation.Messages
import GraphQL.Proofs.Validation.Nesting
import GraphQL.Proofs.Validation.RuleOrder
import GraphQL.Proofs.Value.Absorption
import GraphQL.Proofs.Value.Encoding
import GraphQL.Proofs.Value.Merge
import GraphQL.Proofs.Value.Paths
import GraphQL.Proofs.Value.Printing
import GraphQL.Proofs.Value.Quoting
import GraphQL.Proofs.Value.Sameness
import GraphQL.Proofs.Value.Shape
import GraphQL.Proofs.Value.Substitution
import GraphQL.Request
import GraphQL.Request.Body
import GraphQL.Resolver
import GraphQL.Schema
import GraphQL.Schema.Position
import GraphQL.Schema.Registry
import GraphQL.Schema.Relations
import GraphQL.Schema.Scalars
import GraphQL.Schema.Type
import GraphQL.Session
import GraphQL.Source.Chars
import GraphQL.Source.Position
import GraphQL.Text
import GraphQL.Text.BlockString
import GraphQL.Text.Escape
import GraphQL.Text.Utf8
import GraphQL.Token
import GraphQL.Token.Error
import GraphQL.Token.Lexer
import GraphQL.TypeRef
import GraphQL.TypeRef.Parser
import GraphQL.Validation
import GraphQL.Validation.Cycles
import GraphQL.Validation.Rules
import GraphQL.Validation.Visit
import GraphQL.Value
import GraphQL.Value.Merge
import GraphQL.Value.Scalar
import GraphQL.Violation
