import GraphQL.Text

/-!
Block strings: `value` takes the common indentation of the later lines and the blank first and last
lines off a text, and `unescape` reads an escaped triple quote.
-/

namespace GraphQL.BlockString

/-- Puts a byte in front of the first line. -/
def consLine (b : UInt8) : List Text → List Text
  | [] => [[b]]
  | line :: lines => (b :: line) :: lines

/-- The lines of a text, ended by LF, CR LF or CR. -/
def lines : Text → List Text
  | [] => [[]]
  | 0x0A :: rest => [] :: lines rest
  | 0x0D :: 0x0A :: rest => [] :: lines rest
  | 0x0D :: rest => [] :: lines rest
  | b :: rest => consLine b (lines rest)

def isBlank (b : UInt8) : Bool := b == 0x20 || b == 0x09

/-- How many blanks a line begins with. -/
def indent (line : Text) : Nat := (line.takeWhile isBlank).length

def isBlankLine (line : Text) : Bool := line.all isBlank

/-- The least indentation of the lines that are not blank. -/
def commonIndent (lines : List Text) : Nat :=
  (((lines.filter (!isBlankLine ·)).map indent).min?).getD 0

/-- Drops the blank lines at both ends. -/
def trimLines (lines : List Text) : List Text :=
  ((lines.dropWhile isBlankLine).reverse.dropWhile isBlankLine).reverse

/-- The value of a block string. The first line keeps its indentation. -/
def value (raw : Text) : Text :=
  match lines raw with
  | [] => []
  | first :: later =>
    let common := commonIndent later
    Text.join [0x0A] (trimLines (first :: later.map (·.drop common)))

/-- Reads each escaped triple quote as a triple quote. -/
def unescape : Text → Text
  | 0x5C :: 0x22 :: 0x22 :: 0x22 :: rest => 0x22 :: 0x22 :: 0x22 :: unescape rest
  | b :: rest => b :: unescape rest
  | [] => []

end GraphQL.BlockString
