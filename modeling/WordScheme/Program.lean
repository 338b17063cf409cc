import WordScheme.Datum.Assemble
import WordScheme.Expr.OfDatum

/-!
# Reading a program

A program is the list of its top level forms. The forms are given their meaning one after the
other, so an error in a form comes before anything that is wrong with the text behind it.
-/

namespace WordScheme

/-- The forms of a text, or the first thing that is wrong with it. -/
def readProgram (text : String) : Except ReadError (List Expr) := do
  let (data, error) := (TokenStream.ofText text).assemble
  let forms ← toExprs data
  match error with
  | some e => throw e
  | none => return forms

end WordScheme
