import WordScheme.Token.Scan

/-!
# A lexer that can look ahead

A `Lexer` is a cursor and at most one token that has been looked at and not yet taken. Looking at a
fault reports it and moves past it, since there is no token to hold.
-/

namespace WordScheme

/-- A place in a text and the token looked at there, if any. -/
structure Lexer where
  cursor : Cursor
  ahead : Option Token
deriving DecidableEq, Repr

namespace Lexer

/-- A lexer at the start of a text. -/
def ofText (text : String) : Lexer :=
  ⟨.start text.toList, none⟩

/-- Takes the next token or fault; `none` is the end of the text. -/
def next (l : Lexer) : Option (Except ReadError Token) × Lexer :=
  match l.ahead with
  | some t => (some (.ok t), ⟨l.cursor, none⟩)
  | none =>
    let (r, c) := l.cursor.next
    (r, ⟨c, none⟩)

/-- Looks at the next token without taking it. -/
def peek (l : Lexer) : Option (Except ReadError Token) × Lexer :=
  match l.ahead with
  | some t => (some (.ok t), l)
  | none =>
    match l.cursor.next with
    | (some (.ok t), c) => (some (.ok t), ⟨c, some t⟩)
    | (r, c) => (r, ⟨c, none⟩)

/-- The empty span behind the last character that was scanned, looked-at tokens included. -/
def endSpan (l : Lexer) : Span :=
  .at l.cursor.offset

/-- Takes tokens until the text ends or a fault, which is then the last result. -/
def drain (l : Lexer) : List (Except ReadError Token) :=
  let rest := l.cursor.stream
  let tokens := l.ahead.toList ++ rest.tokens
  tokens.map .ok ++ match rest.ending with
    | .finished _ => []
    | .fault e => [.error e]

end Lexer

end WordScheme
