import WordScheme.ReadError

/-!
# Tokens

A token is a kind, the text it covers and the span of that text. Delimiters only group; the other
tokens are atoms and carry a value.
-/

namespace WordScheme

/-- The kinds of token that stand for a value. -/
inductive AtomKind where
  | identifier
  | boolean
  | character
  | integer
  | decimal
  | string
deriving DecidableEq, Repr

/-- The kinds of token. -/
inductive TokenKind where
  | openList
  | closeList
  | openVector
  | quote
  | atom (kind : AtomKind)
deriving DecidableEq, Repr

/-- A token with its text and place. -/
structure Token where
  kind : TokenKind
  text : String
  span : Span
deriving DecidableEq, Repr

end WordScheme
