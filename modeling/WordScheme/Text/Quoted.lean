import WordScheme.Text.Extending
import WordScheme.Text.Graphic

/-!
# Quoted text

A text between quotes shows every character unmistakably. A quote and a backslash get a backslash,
four controls have a letter of their own, and what is not graphic, or would merge with the character
before it, is written by its code point.
-/

namespace WordScheme

/-- A character by its code point, in hexadecimal digits between braces. -/
def codePointEscape (c : Char) : List Char :=
  ['\\', 'u', '\x7b'] ++ Nat.toDigits 16 c.toNat ++ ['\x7d']

/-- A character as it stands between quotes. -/
def quoteChar (c : Char) : List Char :=
  if c == '\x22' || c == '\\' then ['\\', c]
  else if c == '\n' then ['\\', 'n']
  else if c == '\r' then ['\\', 'r']
  else if c == '\t' then ['\\', 't']
  else if c == '\x00' then ['\\', '0']
  else if isGraphic c && !isExtending c then [c]
  else codePointEscape c

/-- A text between quotes. -/
def quoteText (s : String) : String :=
  "\"" ++ String.ofList (s.toList.flatMap quoteChar) ++ "\""

end WordScheme
