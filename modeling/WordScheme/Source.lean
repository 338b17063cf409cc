import WordScheme.Text.Styled
import WordScheme.Text.Utf8

/-!
# Sources and positions

A `Source` is a text and where it came from; a `Span` is a range of byte offsets into it. Rows and
columns start at one, a column counting bytes. Offsets past the end have the position of the end;
an offset inside a character has no position, and `none` says so.
-/

namespace WordScheme

/-- The bytes from `start` up to, and without, `stop`. -/
structure Span where
  start : Nat
  stop : Nat
deriving DecidableEq, Repr, Inhabited

/-- From the start of one span to the end of another. -/
def Span.to (s t : Span) : Span :=
  ⟨s.start, t.stop⟩

/-- The empty span at an offset. -/
def Span.at (offset : Nat) : Span :=
  ⟨offset, offset⟩

/-- Where a source came from. -/
inductive Origin where
  | memory
  | file (path : String)
deriving DecidableEq, Repr

/-- How messages name the origin. -/
def Origin.text : Origin → String
  | .memory => "<memory>"
  | .file path => path

/-- A text to be read. -/
structure Source where
  origin : Origin
  text : String
deriving DecidableEq, Repr

namespace Source

/-- A source that is not a file. -/
def ofText (text : String) : Source :=
  ⟨.memory, text⟩

/-- The characters of the source. -/
def chars (s : Source) : List Char :=
  s.text.toList

/-- The text of a span, if both ends lie on character boundaries in the right order. -/
def slice? (s : Source) (span : Span) : Option String :=
  if span.start ≤ span.stop then do
    let (_, rest) ← cutAt? s.chars span.start
    let (inside, _) ← cutAt? rest (span.stop - span.start)
    return String.ofList inside
  else none

/-- The characters in front of an offset, or all of them past the end. -/
def before? (s : Source) (offset : Nat) : Option (List Char) :=
  (cutAt? s.chars (min offset (byteLength s.chars))).map Prod.fst

/-- The characters after the last newline. -/
def lastLine (cs : List Char) : List Char :=
  (cs.reverse.takeWhile (· != '\n')).reverse

/-- The row of an offset: one more than the newlines in front of it. -/
def row? (s : Source) (offset : Nat) : Option Nat :=
  (s.before? offset).map fun cs => cs.count '\n' + 1

/-- The column of an offset: one more than the bytes between it and the start of its row. -/
def column? (s : Source) (offset : Nat) : Option Nat :=
  (s.before? offset).map fun cs => byteLength (lastLine cs) + 1

/-- Origin, row and column of the start of a span. -/
def position? (s : Source) (span : Span) : Option String := do
  let row ← s.row? span.start
  let column ← s.column? span.start
  return s.origin.text ++ ":" ++ toString row ++ ":" ++ toString column

/-! ### Showing the line of a span -/

/-- Takes a carriage return off the end of a line that is held back to front. -/
private def dropReturn : List Char → List Char
  | '\r' :: cs => cs
  | cs => cs

/-- The lines of a text, after the characters of an unfinished line held back to front. -/
private def linesFrom : List Char → List Char → List (List Char)
  | [], [] => []
  | line, [] => [line.reverse]
  | line, '\n' :: cs => (dropReturn line).reverse :: linesFrom [] cs
  | line, c :: cs => linesFrom (c :: line) cs

/-- The lines of a text. A newline ends a line and takes a carriage return in front of it along;
nothing after the last newline is no line. -/
def lines (cs : List Char) : List (List Char) :=
  linesFrom [] cs

/-- The line in which a span starts, with the span underlined as far as the line goes. Nothing is
shown for a span behind the last line. -/
def highlight (s : Source) (span : Span) : Styled :=
  match s.row? span.start, s.column? span.start with
  | some row, some column =>
    match (lines s.chars)[row - 1]? with
    | none => []
    | some line =>
      let width := max 1 (min (span.stop - span.start) (byteLength line - (column - 1)))
      let gutter := toString row
      Colour.blue.paint gutter ++ raw " " ++ Colour.blue.paint "|" ++ raw " "
        ++ raw (String.ofList line) ++ raw "\n"
        ++ raw ("".pushn ' ' gutter.length) ++ raw " " ++ Colour.blue.paint "|" ++ raw " "
        ++ raw ("".pushn ' ' (column - 1)) ++ Colour.red.paint ("".pushn '^' width) ++ raw "\n"
  | _, _ => []

end Source

end WordScheme
