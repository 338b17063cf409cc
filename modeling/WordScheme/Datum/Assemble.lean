import WordScheme.Datum
import WordScheme.Token.Scan

/-!
# Assembling data

`assemble` groups a stream of tokens, holding the unfinished constructs on a stack, innermost
first. It gives the data that are complete and, if the stream stops for a bad reason, why: a
closing parenthesis that closes nothing or follows a quote, an end inside a construct, or the fault
that ended the stream.
-/

namespace WordScheme

/-- A construct that has begun and not ended. -/
inductive Frame where
  /-- A list or a vector, its items so far back to front. -/
  | sequence (vector : Bool) (opening : Span) (items : List Datum)
  /-- A quote that waits for its datum. -/
  | quotation (opening : Span)
deriving Repr, Inhabited

/-- The datum that a finished sequence is. -/
def sequenceDatum (vector : Bool) (items : List Datum) (span : Span) : Datum :=
  if vector then .vector items span else .list items span

/-- Hands a complete datum to the innermost construct; quotes are complete with it. A datum inside
no construct is given back. -/
def place : Datum → List Frame → Option Datum × List Frame
  | d, [] => (some d, [])
  | d, .sequence vector opening items :: frames =>
    (none, .sequence vector opening (d :: items) :: frames)
  | d, .quotation opening :: frames => place (.quoted d (opening.to d.span)) frames

/-- What is wrong with a stream that ends inside these constructs. -/
def endError? (frames : List Frame) : Ending → Option ReadError
  | .fault e => some e
  | .finished offset =>
    match frames with
    | [] => none
    | .sequence vector _ _ :: _ =>
      some ⟨.unexpectedEnd (if vector then .vector else .list), .at offset⟩
    | .quotation opening :: _ => some ⟨.unexpectedEnd .quotation, opening⟩

/-- The complete data of a stream that is read inside the given constructs, and its error. -/
def assembleFrom (ending : Ending) : List Frame → List Token → List Datum × Option ReadError
  | frames, [] => ([], endError? frames ending)
  | frames, t :: ts =>
    match t.kind with
    | .openList => assembleFrom ending (.sequence false t.span [] :: frames) ts
    | .openVector => assembleFrom ending (.sequence true t.span [] :: frames) ts
    | .quote => assembleFrom ending (.quotation t.span :: frames) ts
    | .atom kind =>
      let (done, frames) := place (.atom kind t.text t.span) frames
      let (later, error) := assembleFrom ending frames ts
      (done.toList ++ later, error)
    | .closeList =>
      match frames with
      | .sequence vector opening items :: frames =>
        let d := sequenceDatum vector items.reverse (opening.to t.span)
        let (done, frames) := place d frames
        let (later, error) := assembleFrom ending frames ts
        (done.toList ++ later, error)
      | _ => ([], some ⟨.unexpectedClose, t.span⟩)

/-- The complete data of a stream, and what is wrong behind them. -/
def TokenStream.assemble (s : TokenStream) : List Datum × Option ReadError :=
  assembleFrom s.ending [] s.tokens

end WordScheme
