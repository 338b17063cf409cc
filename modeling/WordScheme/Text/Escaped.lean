import WordScheme.Text.Hex
import WordScheme.Text.Utf8

/-!
# Escaped bytes and names

Printed names and byte strings use printable ASCII only. `escapeBytes` writes any other byte, and
the quote and the backslash, as a backslash with two hexadecimal digits. `sigilName` puts a name
behind its sigil, bare when every character is allowed there and else quoted and escaped, so that
different names always print differently.
-/

namespace WordScheme

/-- A byte that stands for itself inside quotes. -/
def isBareByte (b : UInt8) : Bool :=
  0x20 ≤ b && b ≤ 0x7E && b != 0x22 && b != 0x5C

/-- One byte as it is written inside quotes. -/
def escapeByte (b : UInt8) : List Char :=
  if isBareByte b then [Char.ofNat b.toNat] else '\\' :: hexByte b

/-- Bytes as they are written inside quotes. -/
def escapeBytes (bytes : List UInt8) : String :=
  String.ofList (bytes.flatMap escapeByte)

/-- The punctuation allowed in a bare name. -/
def isNamePunctuation (c : Char) : Bool :=
  c == '-' || c == '$' || c == '.' || c == '_'

/-- A name that needs no quotes: not empty, of ASCII letters, digits and `-$._`, and not starting
with a digit. -/
def isBareName : List Char → Bool
  | [] => false
  | c :: cs =>
    (c.isAlpha || isNamePunctuation c) && cs.all fun d => d.isAlphanum || isNamePunctuation d

/-- A name without its sigil, quoted if it has to be. -/
def quotedName (name : String) : String :=
  if isBareName name.toList then name
  else "\"" ++ escapeBytes (utf8Bytes name) ++ "\""

/-- A name behind its sigil, quoted if it has to be. -/
def sigilName (sigil : String) (name : String) : String :=
  sigil ++ quotedName name

end WordScheme
