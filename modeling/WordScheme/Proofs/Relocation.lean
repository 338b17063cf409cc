import Mathlib
import WordScheme.Program

/-!
# Reading does not depend on places

Spans are carried along and never looked at: when the spans of a datum are relocated, its meaning
stays what it was, and an error in it is the same error at the relocated span (`toExpr_relocate`).
Assembling tokens also joins spans and points to the end of the text, so there the relocation is one
of offsets: `TokenStream.read_move` says that moving the offsets of a stream of tokens moves those
of its error, and changes nothing else about what is read.
-/

namespace WordScheme

/-! ### Relocated data -/

/-- The same error at another span. -/
def ReadError.relocate (f : Span → Span) (e : ReadError) : ReadError :=
  ⟨e.fault, f e.span⟩

mutual

/-- The same datum at other spans. -/
def Datum.relocate (f : Span → Span) : Datum → Datum
  | .atom kind text span => .atom kind text (f span)
  | .list items span => .list (relocateAll f items) (f span)
  | .vector items span => .vector (relocateAll f items) (f span)
  | .quoted d span => .quoted (d.relocate f) (f span)

@[inherit_doc Datum.relocate]
def relocateAll (f : Span → Span) : List Datum → List Datum
  | [] => []
  | d :: ds => d.relocate f :: relocateAll f ds

end

section

variable {f : Span → Span}

/-- Data are relocated one by one. -/
private theorem relocateAll_eq_map (ds : List Datum) :
    relocateAll f ds = ds.map (Datum.relocate f) := by
  induction ds with
  | nil => rfl
  | cons d ds ih => rw [relocateAll, ih, List.map_cons]

/-- A relocated datum is at the relocated span. -/
private theorem span_relocate (d : Datum) : (d.relocate f).span = f d.span := by
  cases d <;> rfl

private theorem identifier?_relocate (d : Datum) : (d.relocate f).identifier? = d.identifier? := by
  cases d with
  | atom kind text span => cases kind <;> rfl
  | _ => rfl

/-- A relocated head means the same. -/
private theorem ofDatum_relocate (d : Datum) : Head.ofDatum (d.relocate f) = Head.ofDatum d := by
  rw [Head.ofDatum, Head.ofDatum, identifier?_relocate]

/-! ### Rules -/

variable {α β : Type} {m m' : Except ReadError α}

/-- Two results that are the same up to the span of an error. -/
def Relocates (f : Span → Span) (m m' : Except ReadError α) : Prop :=
  m' = m.mapError (ReadError.relocate f)

private theorem relocates_ok (a : α) : Relocates f (.ok a) (.ok a) := rfl

private theorem relocates_malformed (form : Form) (defect : Defect) (span : Span) :
    Relocates f (malformed form defect span : Except ReadError α)
      (malformed form defect (f span)) := rfl

/-- Results that are the same up to the span of an error are so one after another. -/
private theorem Relocates.bind {k k' : α → Except ReadError β} (h : Relocates f m m')
    (hk : ∀ a, Relocates f (k a) (k' a)) : Relocates f (m >>= k) (m' >>= k') := by
  rw [Relocates] at h
  subst h
  cases m with
  | error e => rfl
  | ok a => exact hk a

/-- A step, and a result that is made of its own. -/
private theorem Relocates.map {k : α → β} (h : Relocates f m m') :
    Relocates f (do return k (← m)) (do return k (← m')) :=
  h.bind fun _ => relocates_ok _

/-! ### The meaning of data -/

/-- A relocated name is the same name. -/
private theorem name_relocate (form : Keyword) (d : Datum) :
    Relocates f (d.name form) ((d.relocate f).name form) := by
  rw [Datum.name, Datum.name, identifier?_relocate, span_relocate]
  cases d.identifier? <;> rfl

private theorem names_relocate (form : Keyword) (ds : List Datum) :
    Relocates f (ds.mapM (Datum.name form)) ((relocateAll f ds).mapM (Datum.name form)) := by
  induction ds with
  | nil => exact relocates_ok []
  | cons d ds ih =>
    rw [relocateAll, List.mapM_cons, List.mapM_cons]
    exact (name_relocate form d).bind fun _ => ih.map

private theorem params_relocate (form : Keyword) (d : Datum) :
    Relocates f (d.params form) ((d.relocate f).params form) := by
  cases d with
  | list items span => exact names_relocate form items
  | _ => exact relocates_malformed ..

/-- Only the error of an operator depends on its span. -/
private theorem operatorExpr_relocate (op : BinaryOp) (span : Span) (es : List Expr) :
    Relocates f (operatorExpr op span es) (operatorExpr op (f span) es) := by
  rcases es with _ | ⟨lhs, _ | ⟨rhs, _ | ⟨e, rest⟩⟩⟩
  · exact relocates_malformed ..
  · rw [operatorExpr, operatorExpr]
    split
    · exact relocates_ok _
    · exact relocates_malformed ..
  · exact relocates_ok _
  · rw [operatorExpr, operatorExpr]
    · split
      · exact relocates_ok _
      · exact relocates_malformed ..
    · exact nofun
    · exact nofun

mutual

/-- **The meaning of a datum does not depend on its place**, and its errors move along with it. -/
theorem toExpr_relocate : (d : Datum) → Relocates f d.toExpr (d.relocate f).toExpr
  | .atom kind text span => by
    rw [Datum.relocate, Datum.toExpr, Datum.toExpr]
    cases atomExpr kind text <;> rfl
  | .vector items span => by
    rw [Datum.relocate, Datum.toExpr, Datum.toExpr]
    exact (toExprs_relocate items).map
  | .quoted datum span => by
    cases datum with
    | list items inner => cases items <;> rfl
    | _ => rfl
  | .list [] span => by
    rw [Datum.relocate, relocateAll, Datum.toExpr, Datum.toExpr]
    exact relocates_malformed ..
  | .list (head :: rest) span => by
    rw [Datum.relocate, relocateAll, Datum.toExpr.eq_def, Datum.toExpr.eq_def]
    dsimp only
    rw [ofDatum_relocate]
    cases Head.ofDatum head with
    | keyword k =>
      cases k with
      | define => exact defineExpr_relocate rest
      | lambda =>
        cases rest with
        | nil => exact relocates_malformed ..
        | cons params body =>
          exact (params_relocate .lambda params).bind fun _ => (bodyExprs_relocate body).map
      | ifElse =>
        rcases rest with _ | ⟨c, _ | ⟨p, _ | ⟨n, _ | ⟨_, _⟩⟩⟩⟩
        · exact relocates_malformed ..
        · exact relocates_malformed ..
        · exact (toExpr_relocate c).bind fun _ => (toExpr_relocate p).map
        · refine (toExpr_relocate c).bind fun _ => (toExpr_relocate p).bind fun _ => ?_
          exact (toExpr_relocate n).map
        · exact relocates_malformed ..
      | cond => exact (clauseExprs_relocate rest).map
      | and => exact (toExprs_relocate rest).map
      | or => exact (toExprs_relocate rest).map
      | not =>
        rcases rest with _ | ⟨operand, _ | ⟨_, _⟩⟩
        · exact relocates_malformed ..
        · exact (toExpr_relocate operand).map
        · exact relocates_malformed ..
      | letIn =>
        rcases rest with _ | ⟨bindings, body⟩
        · exact relocates_malformed ..
        · cases bindings with
          | list items _ =>
            exact (bindingExprs_relocate items).bind fun _ => (bodyExprs_relocate body).map
          | _ => exact relocates_malformed ..
      | assign =>
        rcases rest with _ | ⟨name, _ | ⟨value, _ | ⟨_, _⟩⟩⟩
        · exact relocates_malformed ..
        · exact relocates_malformed ..
        · exact (name_relocate .assign name).bind fun _ => (toExpr_relocate value).map
        · exact relocates_malformed ..
      | sequence => exact (toExprs_relocate rest).map
      | ret =>
        rcases rest with _ | ⟨value, _ | ⟨_, _⟩⟩
        · exact relocates_ok _
        · exact (toExpr_relocate value).map
        · exact relocates_malformed ..
    | binary op => exact (toExprs_relocate rest).bind (operatorExpr_relocate op span)
    | primitive p => exact (toExprs_relocate rest).map
    | value => exact (toExpr_relocate head).bind fun _ => (toExprs_relocate rest).map
termination_by structural d => d

/-- Relocated data mean the same expressions. -/
theorem toExprs_relocate : (ds : List Datum) →
    Relocates f (toExprs ds) (toExprs (relocateAll f ds))
  | [] => by
    rw [relocateAll, toExprs]
    exact relocates_ok []
  | d :: ds => by
    rw [relocateAll, toExprs, toExprs]
    exact (toExpr_relocate d).bind fun _ => (toExprs_relocate ds).map
termination_by structural ds => ds

private theorem bodyExprs_relocate {form : Keyword} {span : Span} : (ds : List Datum) →
    Relocates f (bodyExprs form span ds) (bodyExprs form (f span) (relocateAll f ds))
  | [] => by
    rw [relocateAll, bodyExprs, bodyExprs]
    exact relocates_malformed ..
  | d :: ds => by
    rw [relocateAll, bodyExprs, bodyExprs]
    exact (toExpr_relocate d).bind fun _ => (toExprs_relocate ds).map
termination_by structural ds => ds

/-- A relocated definition means the same. -/
private theorem defineExpr_relocate {span : Span} : (ds : List Datum) →
    Relocates f (defineExpr span ds) (defineExpr (f span) (relocateAll f ds))
  | [] => by
    rw [relocateAll, defineExpr.eq_def, defineExpr.eq_def]
    exact relocates_malformed ..
  | d :: ds => by
    rw [relocateAll, defineExpr.eq_def, defineExpr.eq_def]
    cases d with
    | list items signature =>
      cases items with
      | nil => exact relocates_malformed ..
      | cons name params =>
        refine (name_relocate .define name).bind fun _ => ?_
        exact (names_relocate .define params).bind fun _ => (bodyExprs_relocate ds).map
    | _ =>
      rcases ds with _ | ⟨value, _ | ⟨_, _⟩⟩
      · exact relocates_malformed ..
      · exact (name_relocate .define _).bind fun _ => (toExpr_relocate value).map
      · exact relocates_malformed ..
termination_by structural ds => ds

private theorem clauseExprs_relocate : (cs : List Datum) →
    Relocates f (clauseExprs cs) (clauseExprs (relocateAll f cs))
  | [] => by
    rw [relocateAll, clauseExprs]
    exact relocates_ok []
  | c :: cs => by
    rw [relocateAll, clauseExprs.eq_def, clauseExprs.eq_def]
    cases c with
    | list items span =>
      cases items with
      | nil => exact relocates_malformed ..
      | cons predicate body =>
        dsimp only [Datum.relocate, relocateAll]
        rw [identifier?_relocate]
        split
        · refine (bodyExprs_relocate body).bind fun _ => ?_
          exact (relocates_ok _).bind fun _ => (clauseExprs_relocate cs).map
        · refine (toExpr_relocate predicate).bind fun _ => ?_
          refine (bodyExprs_relocate body).bind fun _ => ?_
          exact (relocates_ok _).bind fun _ => (clauseExprs_relocate cs).map
    | _ => exact relocates_malformed ..
termination_by structural cs => cs

private theorem bindingExprs_relocate : (bs : List Datum) →
    Relocates f (bindingExprs bs) (bindingExprs (relocateAll f bs))
  | [] => by
    rw [relocateAll, bindingExprs]
    exact relocates_ok []
  | b :: bs => by
    rw [relocateAll, bindingExprs.eq_def, bindingExprs.eq_def]
    cases b with
    | list items span =>
      rcases items with _ | ⟨name, _ | ⟨value, _ | ⟨_, _⟩⟩⟩
      · exact relocates_malformed ..
      · exact relocates_malformed ..
      · refine (name_relocate .letIn name).bind fun _ => (toExpr_relocate value).bind fun _ => ?_
        exact (bindingExprs_relocate bs).map
      · exact relocates_malformed ..
    | _ => exact relocates_malformed ..
termination_by structural bs => bs

end

/-- The forms of a program, by its complete data and by what is wrong behind them. -/
def formsOf (data : List Datum) (error : Option ReadError) : Except ReadError (List Expr) := do
  let forms ← toExprs data
  match error with
  | some e => throw e
  | none => return forms

/-- A relocated program has the same forms. -/
private theorem formsOf_relocate (data : List Datum) (error : Option ReadError) :
    Relocates f (formsOf data error)
      (formsOf (relocateAll f data) (error.map (ReadError.relocate f))) := by
  refine (toExprs_relocate data).bind fun forms => ?_
  cases error <;> rfl

end

/-! ### One token -/

/-- What a token does to the open constructs: the datum that is complete with it, if there is one,
and the constructs that are open behind it. A parenthesis that closes nothing does not go on. -/
def advance? (frames : List Frame) (t : Token) : Option (Option Datum × List Frame) :=
  match t.kind with
  | .openList => some (none, .sequence false t.span [] :: frames)
  | .openVector => some (none, .sequence true t.span [] :: frames)
  | .quote => some (none, .quotation t.span :: frames)
  | .atom kind => some (place (.atom kind t.text t.span) frames)
  | .closeList =>
    match frames with
    | .sequence vector opening items :: frames =>
      some (place (sequenceDatum vector items.reverse (opening.to t.span)) frames)
    | _ => none

/-- Assembling takes one token after the other. -/
theorem assembleFrom_cons (ending : Ending) (frames : List Frame) (t : Token) (ts : List Token) :
    assembleFrom ending frames (t :: ts) =
      match advance? frames t with
      | none => ([], some ⟨.unexpectedClose, t.span⟩)
      | some (done, frames) =>
        (done.toList ++ (assembleFrom ending frames ts).1, (assembleFrom ending frames ts).2) := by
  obtain ⟨kind, text, span⟩ := t
  cases kind with
  | closeList =>
    cases frames with
    | nil => rfl
    | cons frame frames => cases frame <;> rfl
  | _ => rfl

/-! ### Moved offsets -/

/-- The span between the new offsets of its ends. -/
def Span.move (g : Nat → Nat) (s : Span) : Span :=
  ⟨g s.start, g s.stop⟩

/-- The same token at other offsets. -/
def Token.move (g : Nat → Nat) (t : Token) : Token :=
  ⟨t.kind, t.text, t.span.move g⟩

/-- The same ending at another offset. -/
def Ending.move (g : Nat → Nat) : Ending → Ending
  | .finished offset => .finished (g offset)
  | .fault e => .fault (e.relocate (Span.move g))

/-- The same tokens at other offsets. -/
def TokenStream.move (g : Nat → Nat) (s : TokenStream) : TokenStream :=
  ⟨s.tokens.map (Token.move g), s.ending.move g⟩

/-- The same construct at other offsets. -/
def Frame.move (g : Nat → Nat) : Frame → Frame
  | .sequence vector opening items =>
    .sequence vector (opening.move g) (relocateAll (Span.move g) items)
  | .quotation opening => .quotation (opening.move g)

section

variable {g : Nat → Nat}

/-- A moved datum is placed where the datum is. -/
private theorem place_move (d : Datum) (frames : List Frame) :
    place (d.relocate (Span.move g)) (frames.map (Frame.move g)) =
      ((place d frames).1.map (Datum.relocate (Span.move g)),
        (place d frames).2.map (Frame.move g)) := by
  induction frames generalizing d with
  | nil => rfl
  | cons frame frames ih =>
    cases frame with
    | sequence vector opening items => rfl
    | quotation opening =>
      have hquoted := ih (.quoted d (opening.to d.span))
      rw [List.map_cons, Frame.move, place, place, span_relocate]
      exact hquoted

/-- Moved items between moved parentheses make the moved sequence. -/
private theorem sequenceDatum_move (vector : Bool) (items : List Datum) (opening last : Span) :
    sequenceDatum vector (relocateAll (Span.move g) items).reverse
        ((opening.move g).to (last.move g)) =
      (sequenceDatum vector items.reverse (opening.to last)).relocate (Span.move g) := by
  rw [relocateAll_eq_map, ← List.map_reverse, ← relocateAll_eq_map]
  cases vector <;> rfl

/-- A moved token advances moved constructs alike. -/
private theorem advance?_move (frames : List Frame) (t : Token) :
    advance? (frames.map (Frame.move g)) (t.move g) =
      (advance? frames t).map fun (done, frames) =>
        (done.map (Datum.relocate (Span.move g)), frames.map (Frame.move g)) := by
  obtain ⟨kind, text, span⟩ := t
  cases kind with
  | atom kind => exact congrArg some (place_move (.atom kind text span) frames)
  | closeList =>
    cases frames with
    | nil => rfl
    | cons frame frames =>
      cases frame with
      | quotation opening => rfl
      | sequence vector opening items =>
        refine congrArg some (Eq.trans ?_ (place_move _ frames))
        rw [← sequenceDatum_move]
        rfl
  | _ => rfl

/-- The error at a moved ending is the moved error. -/
private theorem endError?_move (frames : List Frame) (ending : Ending) :
    endError? (frames.map (Frame.move g)) (ending.move g) =
      (endError? frames ending).map (ReadError.relocate (Span.move g)) := by
  cases ending with
  | fault e => rfl
  | finished offset =>
    cases frames with
    | nil => rfl
    | cons frame frames => cases frame <;> rfl

/-- **Assembling goes on the same at other offsets.** -/
theorem assembleFrom_move (ending : Ending) (frames : List Frame) (ts : List Token) :
    assembleFrom (ending.move g) (frames.map (Frame.move g)) (ts.map (Token.move g)) =
      (relocateAll (Span.move g) (assembleFrom ending frames ts).1,
        (assembleFrom ending frames ts).2.map (ReadError.relocate (Span.move g))) := by
  induction ts generalizing frames with
  | nil => exact congrArg (Prod.mk []) (endError?_move frames ending)
  | cons t ts ih =>
    rw [List.map_cons, assembleFrom_cons, assembleFrom_cons, advance?_move]
    cases advance? frames t with
    | none => rfl
    | some r =>
      obtain ⟨done, frames⟩ := r
      dsimp only [Option.map_some]
      rw [ih frames]
      cases done <;> rfl

/-- What a stream of tokens reads to. -/
def TokenStream.read (s : TokenStream) : Except ReadError (List Expr) :=
  formsOf s.assemble.1 s.assemble.2

/-- Reading a text is reading its tokens. -/
theorem readProgram_eq_read (text : String) : readProgram text = (TokenStream.ofText text).read :=
  rfl

/-- **Reading does not depend on offsets**: where the tokens are moved, so is an error, and the
forms are the same. -/
theorem TokenStream.read_move (s : TokenStream) :
    (s.move g).read = s.read.mapError (ReadError.relocate (Span.move g)) := by
  have hassemble : (s.move g).assemble = (relocateAll (Span.move g) s.assemble.1,
      s.assemble.2.map (ReadError.relocate (Span.move g))) :=
    assembleFrom_move s.ending [] s.tokens
  rw [read, hassemble]
  exact formsOf_relocate s.assemble.1 s.assemble.2

end

end WordScheme
