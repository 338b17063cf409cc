/-!
# Styled text

Printed text is kept as a list of pieces, each with the colour it would take. One list has two
readings: `Styled.plain` drops the colours, `Styled.ansi` wraps each coloured piece in the escape
sequences a terminal understands. Because both are read off the same pieces, colour cannot change
what is printed.
-/

namespace WordScheme

/-- The colours in use. -/
inductive Colour where
  | red
  | yellow
  | blue
  | magenta
  | cyan
  | white
  | brightRed
  | brightGreen
deriving DecidableEq, Repr

/-- The number that selects a colour as the foreground. -/
def Colour.code : Colour → String
  | .red => "31"
  | .yellow => "33"
  | .blue => "34"
  | .magenta => "35"
  | .cyan => "36"
  | .white => "37"
  | .brightRed => "91"
  | .brightGreen => "92"

/-- One change to how text is drawn. -/
inductive Mark where
  | bold
  | underline
  | colour (colour : Colour)
deriving DecidableEq, Repr

/-- The number that selects a mark. -/
def Mark.code : Mark → String
  | .bold => "1"
  | .underline => "4"
  | .colour c => c.code

/-- The escape sequence that makes several changes at once. -/
def markSequence (marks : List Mark) : List Char :=
  ['\x1b', '['] ++ (";".intercalate (marks.map Mark.code)).toList ++ ['m']

/-- How a piece is drawn: its marks, grouped by the escape sequence that sets them. -/
structure Ink where
  groups : List (List Mark)
deriving DecidableEq, Repr

/-- The escape sequences that start drawing in this ink. -/
def Ink.opening (ink : Ink) : List Char :=
  ink.groups.flatMap markSequence

/-- The escape sequence that ends every ink. -/
def Ink.reset : List Char :=
  ['\x1b', '[', '0', 'm']

/-- A run of text in one ink, or in none. -/
structure Piece where
  text : String
  ink : Option Ink
deriving DecidableEq, Repr

/-- Text as the list of its pieces. -/
abbrev Styled := List Piece

/-- Repeats `opening` after each reset that the text itself holds, so that the rest of the piece
keeps its ink. -/
def reopen (opening : List Char) : List Char → List Char
  | [] => []
  | '\x1b' :: '[' :: '0' :: 'm' :: cs => Ink.reset ++ opening ++ reopen opening cs
  | c :: cs => c :: reopen opening cs

/-- The characters of a piece as a terminal is to receive them. -/
def Piece.ansi (p : Piece) : List Char :=
  match p.ink with
  | none => p.text.toList
  | some ink => ink.opening ++ reopen ink.opening p.text.toList ++ Ink.reset

/-- A piece without colour. -/
def raw (text : String) : Styled :=
  [⟨text, none⟩]

/-- A piece in a colour. -/
def Colour.paint (colour : Colour) (text : String) : Styled :=
  [⟨text, some ⟨[[.colour colour]]⟩⟩]

/-- A piece in a colour, bold. -/
def Colour.paintBold (colour : Colour) (text : String) : Styled :=
  [⟨text, some ⟨[[.bold, .colour colour]]⟩⟩]

/-- A piece with marks that are set one after the other. -/
def marked (marks : List Mark) (text : String) : Styled :=
  [⟨text, some ⟨marks.map fun m => [m]⟩⟩]

/-- The text alone. -/
def Styled.plain (s : Styled) : String :=
  String.join (s.map Piece.text)

/-- The text with its escape sequences. -/
def Styled.ansi (s : Styled) : String :=
  String.ofList (s.flatMap Piece.ansi)

/-- The text as it is shown when colours are on or off. -/
def Styled.shown (s : Styled) (colours : Bool) : String :=
  if colours then s.ansi else s.plain

/-- Joins styled texts with a separator between neighbours. -/
def Styled.joinWith (separator : String) : List Styled → Styled
  | [] => []
  | [s] => s
  | s :: rest => s ++ raw separator ++ joinWith separator rest

end WordScheme
