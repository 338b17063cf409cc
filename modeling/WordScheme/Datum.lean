import WordScheme.Token

/-!
# Data

Tokens group into data: atoms, lists, vectors and quotations. Every datum knows the span from its
first token to its last.
-/

namespace WordScheme

/-- A datum, not yet given a meaning. -/
inductive Datum where
  | atom (kind : AtomKind) (text : String) (span : Span)
  | list (items : List Datum) (span : Span)
  | vector (items : List Datum) (span : Span)
  | quoted (datum : Datum) (span : Span)
deriving Repr, Inhabited

/-- The text that a datum covers. -/
def Datum.span : Datum → Span
  | .atom _ _ span => span
  | .list _ span => span
  | .vector _ span => span
  | .quoted _ span => span

/-- The text of an identifier. -/
def Datum.identifier? : Datum → Option String
  | .atom .identifier text _ => some text
  | _ => none

end WordScheme
