/-!
# Blanks and delimiters

Two character classes decide where tokens begin and end, and they differ:

* `isBlank` is what may be skipped *between* tokens, the Unicode property `White_Space`;
* `isDelimiter` is what ends a running atom, and of the blanks it knows only the five of ASCII
  (space, tab, line feed, form feed, carriage return).

A blank outside ASCII, or a vertical tab, is therefore skipped before an atom and kept inside one.
-/

namespace WordScheme

/-- Code point ranges, ends included and in ascending order, of the property `White_Space`. -/
def blankRanges : List (Nat × Nat) :=
  [(0x09, 0x0D), (0x20, 0x20), (0x85, 0x85), (0xA0, 0xA0), (0x1680, 0x1680), (0x2000, 0x200A),
    (0x2028, 0x2029), (0x202F, 0x202F), (0x205F, 0x205F), (0x3000, 0x3000)]

/-- A character that separates tokens and belongs to none. -/
def isBlank (c : Char) : Bool :=
  blankRanges.any fun r => r.1 ≤ c.toNat && c.toNat ≤ r.2

/-- A character that ends an atom: ASCII white space, a parenthesis, a quote or a semicolon. -/
def isDelimiter (c : Char) : Bool :=
  [' ', '\t', '\n', '\x0c', '\r', '(', ')', '\x22', ';', '\x27'].contains c

end WordScheme
