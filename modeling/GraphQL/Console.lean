import GraphQL.TypeRef
import GraphQL.Value.Scalar

/-!
Messages for those who watch the engine at work. What is not severe enough is not shown, warnings
and errors go to the error output, and colours tell the kinds apart.
-/

namespace GraphQL.Console

inductive Severity where
  | debug
  | info
  | warn
  | error
deriving DecidableEq, Repr

/-- The rank of a severity. -/
def Severity.rank : Severity → Int
  | debug => 0
  | info => 1
  | warn => 2
  | error => 3

/-- The least rank that is shown. -/
abbrev Threshold := Int

/-- The threshold that shows nothing. -/
def Threshold.silent : Threshold := 4

inductive Kind where
  | log
  | info
  | success
  | debug
  | warn
  | error
deriving DecidableEq, Repr

namespace Kind

/-- How severe messages of a kind are. -/
def severity : Kind → Severity
  | log => .info
  | info => .info
  | success => .info
  | debug => .debug
  | warn => .warn
  | error => .error

/-- `true` for what goes to the error output. -/
def isError : Kind → Bool
  | warn => true
  | error => true
  | _ => false

/-- The colour of a kind, as the number of a display attribute. -/
def colour : Kind → Text
  | log => lit "0"
  | info => lit "34"
  | success => lit "32"
  | debug => lit "36"
  | warn => lit "33"
  | error => lit "31"

/-- The mark before messages of a kind. -/
def mark : Kind → Text
  | log => []
  | info => lit "ℹ "
  | success => lit "✔ "
  | debug => lit "● "
  | warn => lit "⚠ "
  | error => lit "✖ "

end Kind

inductive Part where
  | text (t : Text)
  | flag (b : Bool)
  | integer (n : Int)
  | real (x : Binary64)
  | type (t : TypeRef)

/-- A part as shown; a real number has six significant digits. -/
def Part.toText : Part → Text
  | text t => t
  | flag b => Scalar.boolText b
  | integer n => Text.ofInt n
  | real x => Decimal.general 6 x
  | type t => t.toText

structure Message where
  kind : Kind
  parts : List Part

/-- The message about a timer that was never started. -/
def unknownTimer (label : Text) : Message :=
  ⟨.warn, [.text (lit "Timer '" ++ label ++ lit "' does not exist")]⟩

/-- Switches a display attribute on. -/
def display (number : Text) : Text := lit "\x1b[" ++ number ++ lit "m"

/-- A message as a line: the time in grey, the coloured mark, and the parts with blanks between. -/
def Message.line (time : Text) (m : Message) : Text :=
  display (lit "90") ++ lit "[" ++ time ++ lit "] " ++ display m.kind.colour ++ m.kind.mark ++
    display (lit "0") ++ Text.join (lit " ") (m.parts.map Part.toText) ++ lit "\n"

/-- What is written to each output. -/
structure Output where
  standard : Text
  error : Text

/-- What is shown of messages that all carry one time. -/
def output (threshold : Threshold) (time : Text) (messages : List Message) : Output :=
  let shown := messages.filter fun m => threshold ≤ m.kind.severity.rank
  ⟨(shown.filter fun m => !m.kind.isError).flatMap (Message.line time),
    (shown.filter fun m => m.kind.isError).flatMap (Message.line time)⟩

end GraphQL.Console
