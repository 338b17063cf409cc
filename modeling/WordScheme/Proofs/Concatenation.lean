import Mathlib
import WordScheme.Proofs.TokenLayout

/-!
# Reading two texts one behind the other

A new line separates two texts: it ends the last token of the first text, and its last comment. So
the first text has the same tokens with or without the second (`Cursor.exists_stream_before`), and
if it has ended well, the second text has its own at later offsets (`ofText_append_of_finished`).
Only a string without its closing quote and a character without its name go on in the second text.

The constructs that are open behind some tokens depend on these tokens alone (`consume`), so the
data of both texts are the data of the first followed by those of the second. With
`TokenStream.read_move` for the offsets this gives `reading_composes`.
-/

namespace WordScheme

/-! ### Places in a text that goes on -/

theorem eq_nil_of_scan {cs : List Char} (h : scan cs = none) : cs = [] := by
  revert h
  fun_cases scan cs with
  | case1 => exact fun _ => rfl
  | _ =>
    intro h
    cases h

namespace Cursor

variable {c d : Cursor} {s : Source}

/-- The same place if more characters stand in front of the text. -/
def shift (k : Nat) (c : Cursor) : Cursor :=
  ⟨k + c.offset, c.rest⟩

theorem skipFrom_shift (k : Nat) (inComment : Bool) (offset : Nat) (cs : List Char) :
    skipFrom inComment (k + offset) cs = (skipFrom inComment offset cs).shift k := by
  induction cs generalizing inComment offset with
  | nil => rfl
  | cons c cs ih =>
    rw [skipFrom, skipFrom, Nat.add_assoc, ih, ih, ih]
    split_ifs <;> rfl

private theorem next_shift (k : Nat) (c : Cursor) : (c.shift k).next =
    (c.next.1.map fun r =>
      (r.map (Token.move (k + ·))).mapError (ReadError.relocate (Span.move (k + ·))),
      c.next.2.shift k) := by
  have hskip : (c.shift k).skip = c.skip.shift k := skipFrom_shift k false c.offset c.rest
  rw [next, next, hskip, shift]
  cases scan c.skip.rest with
  | none => rfl
  | some scanned =>
    obtain ⟨outcome, taken, rest⟩ := scanned
    dsimp only [shift]
    rw [Nat.add_assoc]
    cases outcome <;> rfl

/-- Behind other characters a text has the same tokens at later offsets. -/
private theorem stream_shift (k : Nat) (c : Cursor) :
    (c.shift k).stream = c.stream.move (k + ·) := by
  fun_induction Cursor.stream c with
  | case1 c d h =>
    rw [stream_eq, next_shift, h]
    rfl
  | case2 c e d h =>
    rw [stream_eq, next_shift, h]
    rfl
  | case3 c t d h later ih =>
    rw [stream_eq, next_shift, h]
    dsimp only [Option.map_some, Except.map, Except.mapError]
    rw [ih]
    rfl

/-- The same place in a text that goes on. -/
def before (more : List Char) (c : Cursor) : Cursor :=
  ⟨c.offset, c.rest ++ more⟩

private theorem skipFrom_before (more : List Char) {inComment : Bool} {offset : Nat}
    {cs : List Char} (h : (skipFrom inComment offset cs).rest ≠ []) :
    skipFrom inComment offset (cs ++ more) = (skipFrom inComment offset cs).before more := by
  induction cs generalizing inComment offset with
  | nil => exact absurd rfl h
  | cons c cs ih =>
    rw [List.cons_append, skipFrom, skipFrom]
    rw [skipFrom] at h
    split_ifs at h ⊢ with hin hblank hcomment
    · exact ih h
    · exact ih h
    · exact ih h
    · rfl

/-- A new line ends a comment and is a blank itself. -/
private theorem skipFrom_newline (more : List Char) {inComment : Bool} {offset : Nat}
    {cs : List Char} (h : (skipFrom inComment offset cs).rest = []) :
    skipFrom inComment offset (cs ++ '\n' :: more) =
      skipFrom false (offset + byteLength cs + 1) more := by
  induction cs generalizing inComment offset with
  | nil =>
    rw [List.nil_append, skipFrom]
    cases inComment <;> rfl
  | cons c cs ih =>
    rw [List.cons_append, skipFrom, byteLength_cons, ← Nat.add_assoc]
    rw [skipFrom] at h
    split_ifs at h ⊢ with hin hblank hcomment
    · exact ih h
    · exact ih h
    · exact ih h

variable (more : List Char)

private theorem next_before {r : Except ReadError Token} (h : c.next = (some r, d))
    (hr : ∀ e, r = .error e → e.fault.isEnd = false) :
    (c.before ('\n' :: more)).next = (some r, d.before ('\n' :: more)) := by
  rw [next] at h
  cases hscan : scan c.skip.rest with
  | none => simp [hscan] at h
  | some scanned =>
    obtain ⟨outcome, taken, rest⟩ := scanned
    simp only [hscan, Prod.mk.injEq, Option.some.injEq] at h
    obtain ⟨hresult, hplace⟩ := h
    have happend : taken ++ rest = c.skip.rest := scan_append hscan
    have hrest : c.skip.rest ≠ [] := by
      rw [← happend]
      exact List.append_ne_nil_of_left_ne_nil (scan_taken_ne_nil hscan) _
    have hskip : (c.before ('\n' :: more)).skip = c.skip.before ('\n' :: more) :=
      skipFrom_before _ hrest
    have hfault : ∀ fault, outcome = .error fault → fault.isEnd = false := by
      rintro fault rfl
      exact hr _ hresult.symm
    have hreplaces : Replaces rest (rest ++ '\n' :: more) := by
      cases rest with
      | nil =>
        refine .inr ?_
        rintro c ⟨⟩
        decide
      | cons x xs => exact .inl rfl
    have hagain := scan_retake hscan hfault hreplaces
    rw [← List.append_assoc, happend] at hagain
    rw [next, hskip]
    simp only [before, hagain, ← hplace, hresult]

/-- Behind the end of a text the next line begins. -/
private theorem stream_before_of_end (h : c.next = (none, d)) :
    (c.before ('\n' :: more)).stream = stream ⟨c.offset + byteLength c.rest + 1, more⟩ := by
  have hrest : c.skip.rest = [] := by
    rw [next] at h
    cases hscan : scan c.skip.rest with
    | none => exact eq_nil_of_scan hscan
    | some scanned => simp [hscan] at h
  have hskip : (c.before ('\n' :: more)).skip =
      skip ⟨c.offset + byteLength c.rest + 1, more⟩ := skipFrom_newline more hrest
  have hnext : (c.before ('\n' :: more)).next =
      next ⟨c.offset + byteLength c.rest + 1, more⟩ := by
    rw [next, next, hskip]
  rw [stream_eq, hnext, ← stream_eq]

/-- The tokens of a text are those of the longer text too. Behind them stands the place where the
text has ended. -/
private theorem exists_stream_before (h : c.Within s) : ∃ d : Cursor, d.Within s ∧
    d.stream = ⟨[], c.stream.ending⟩ ∧
    (c.before ('\n' :: more)).stream =
      ⟨c.stream.tokens ++ (d.before ('\n' :: more)).stream.tokens,
        (d.before ('\n' :: more)).stream.ending⟩ := by
  fun_induction Cursor.stream c with
  | case1 c d hnext =>
    refine ⟨c, h, ?_, rfl⟩
    rw [stream_eq, hnext]
  | case2 c e d hnext =>
    refine ⟨c, h, ?_, rfl⟩
    rw [stream_eq, hnext]
  | case3 c t d hnext later ih =>
    have hstep := h.next
    rw [hnext] at hstep
    cases hstep with
    | token hscan hholds hstart hd hstop =>
      obtain ⟨last, hlast, hending, hstream⟩ := ih hd
      refine ⟨last, hlast, hending, ?_⟩
      rw [stream_eq, next_before more hnext (by intro e he; cases he)]
      dsimp only
      rw [hstream]
      rfl

end Cursor

/-! ### Data of a stream that goes on -/

/-- What tokens do to the open constructs: the data that are complete, and the constructs that are
open behind them unless a parenthesis has closed nothing. -/
def consume : List Frame → List Token → List Datum × Except ReadError (List Frame)
  | frames, [] => ([], .ok frames)
  | frames, t :: ts =>
    match advance? frames t with
    | none => ([], .error ⟨.unexpectedClose, t.span⟩)
    | some (done, frames) => (done.toList ++ (consume frames ts).1, (consume frames ts).2)

theorem assembleFrom_append (ending : Ending) (frames : List Frame) (ts us : List Token) :
    assembleFrom ending frames (ts ++ us) =
      match (consume frames ts).2 with
      | .error e => ((consume frames ts).1, some e)
      | .ok frames' => ((consume frames ts).1 ++ (assembleFrom ending frames' us).1,
          (assembleFrom ending frames' us).2) := by
  induction ts generalizing frames with
  | nil => rfl
  | cons t ts ih =>
    rw [List.cons_append, assembleFrom_cons, consume]
    cases advance? frames t with
    | none => rfl
    | some r =>
      obtain ⟨done, frames⟩ := r
      dsimp only
      rw [ih]
      cases (consume frames ts).2 with
      | error e => rfl
      | ok frames' => simp only [List.append_assoc]

theorem assembleFrom_eq (ending : Ending) (frames : List Frame) (ts : List Token) :
    assembleFrom ending frames ts =
      match (consume frames ts).2 with
      | .error e => ((consume frames ts).1, some e)
      | .ok frames' => ((consume frames ts).1, endError? frames' ending) := by
  have happend := assembleFrom_append ending frames ts []
  rw [List.append_nil] at happend
  rw [happend]
  cases (consume frames ts).2 with
  | error e => rfl
  | ok frames' =>
    dsimp only [assembleFrom]
    rw [List.append_nil]

private theorem toExprs_append (ds es : List Datum) : toExprs (ds ++ es) = do
    let forms ← toExprs ds
    let later ← toExprs es
    return forms ++ later := by
  induction ds with
  | nil =>
    rw [List.nil_append, toExprs]
    cases toExprs es <;> rfl
  | cons d ds ih =>
    rw [List.cons_append, toExprs, toExprs, ih]
    cases d.toExpr with
    | error e => rfl
    | ok x =>
      cases toExprs ds with
      | error e => rfl
      | ok forms => cases toExprs es <;> rfl

/-- The forms behind complete data come behind their forms. -/
private theorem formsOf_append {ds : List Datum} {forms : List Expr} (h : toExprs ds = .ok forms)
    (es : List Datum) (error : Option ReadError) :
    formsOf (ds ++ es) error = (formsOf es error).map (forms ++ ·) := by
  rw [formsOf, formsOf, toExprs_append, h]
  cases toExprs es with
  | error e => rfl
  | ok later => cases error <;> rfl

/-- An error in the meaning of a datum comes before all that is behind it. -/
private theorem formsOf_append_of_error {ds : List Datum} {e : ReadError}
    (h : toExprs ds = .error e)
    (es : List Datum) (error : Option ReadError) : formsOf (ds ++ es) error = .error e := by
  rw [formsOf, toExprs_append, h]
  rfl

private theorem formsOf_eq_ok {ds : List Datum} {error : Option ReadError} {forms : List Expr} :
    formsOf ds error = .ok forms ↔ toExprs ds = .ok forms ∧ error = none := by
  rw [formsOf]
  cases toExprs ds <;> cases error <;>
    simp [bind, Except.bind, pure, Except.pure, throw, throwThe, MonadExceptOf.throw]

private theorem toExprs_eq_error_of_formsOf {ds : List Datum} {error : Option ReadError}
    {e : ReadError}
    (h : formsOf ds error = .error e) (hne : error ≠ some e) : toExprs ds = .error e := by
  rw [formsOf] at h
  cases hforms : toExprs ds with
  | error e' =>
    rw [hforms] at h
    cases h
    rfl
  | ok forms =>
    rw [hforms] at h
    cases error with
    | none => cases h
    | some e' =>
      cases h
      exact absurd rfl hne

private theorem endError?_eq_none {frames : List Frame} {ending : Ending} :
    endError? frames ending = none ↔ frames = [] ∧ ∃ stop, ending = .finished stop := by
  fun_cases endError? frames ending <;> simp

/-- Behind the last token it is the end of the text that is wrong, or the fault that has ended the
stream. -/
private theorem eq_fault_of_endError? {frames : List Frame} {ending : Ending} {e : ReadError}
    (h : endError? frames ending = some e) (he : e.fault.isEnd = false) : ending = .fault e := by
  revert h
  fun_cases endError? frames ending with
  | case1 e' =>
    rintro ⟨⟩
    rfl
  | case2 stop => exact nofun
  | case3 stop vector opening items frames =>
    rintro ⟨⟩
    cases he
  | case4 stop opening frames =>
    rintro ⟨⟩
    cases he

/-! ### Two texts -/

section

variable (a b : String)

/-- The tokens of the first text come first, and behind them what stands where it has ended. -/
private theorem exists_ofText_append : ∃ d : Cursor, d.offset + byteLength d.rest = a.utf8ByteSize ∧
    d.stream = ⟨[], (TokenStream.ofText a).ending⟩ ∧
    TokenStream.ofText (a ++ "\n" ++ b) =
      ⟨(TokenStream.ofText a).tokens ++ (d.before ('\n' :: b.toList)).stream.tokens,
        (d.before ('\n' :: b.toList)).stream.ending⟩ := by
  obtain ⟨d, ⟨start, hchars, hoffset⟩, hending, hstream⟩ :=
    Cursor.exists_stream_before b.toList (Cursor.within_start (.ofText a))
  refine ⟨d, ?_, hending, ?_⟩
  · have hsize := congrArg byteLength hchars
    rw [byteLength_append, hoffset] at hsize
    rw [← hsize, ← byteLength_toList]
    rfl
  · have htext : (a ++ "\n" ++ b).toList = a.toList ++ '\n' :: b.toList := by
      simp
    rw [TokenStream.ofText, htext]
    exact hstream

variable {a}

/-- Behind a complete text come the tokens of the next line, at later offsets. -/
private theorem ofText_append_of_finished {stop : Nat}
    (h : (TokenStream.ofText a).ending = .finished stop) :
    TokenStream.ofText (a ++ "\n" ++ b) =
      ⟨(TokenStream.ofText a).tokens ++
          ((TokenStream.ofText b).move (a.utf8ByteSize + 1 + ·)).tokens,
        ((TokenStream.ofText b).move (a.utf8ByteSize + 1 + ·)).ending⟩ := by
  obtain ⟨d, hsize, hending, hstream⟩ := exists_ofText_append a b
  have hnext : ∃ d', d.next = (none, d') := by
    rw [Cursor.stream_eq, h] at hending
    split at hending <;> simp_all
  obtain ⟨d', hnext⟩ := hnext
  have hlater : (d.before ('\n' :: b.toList)).stream =
      (TokenStream.ofText b).move (a.utf8ByteSize + 1 + ·) := by
    rw [Cursor.stream_before_of_end _ hnext, hsize, TokenStream.ofText, ← Cursor.stream_shift]
    rfl
  rw [hstream, hlater]

/-- A fault that is not at the end of the text is still there. -/
private theorem ofText_append_of_fault {e : ReadError}
    (h : (TokenStream.ofText a).ending = .fault e)
    (he : e.fault.isEnd = false) : TokenStream.ofText (a ++ "\n" ++ b) = TokenStream.ofText a := by
  obtain ⟨d, -, hending, hstream⟩ := exists_ofText_append a b
  have hnext : ∃ d', d.next = (some (.error e), d') := by
    rw [Cursor.stream_eq, h] at hending
    split at hending <;> simp_all
  obtain ⟨d', hnext⟩ := hnext
  have hlater : (d.before ('\n' :: b.toList)).stream = ⟨[], .fault e⟩ := by
    rw [Cursor.stream_eq, Cursor.next_before _ hnext (by rintro _ ⟨⟩; exact he)]
  rw [hstream, hlater, List.append_nil, ← h]

/-- A text that reads is followed by what the next line reads to. -/
private theorem readProgram_append {forms : List Expr} (h : readProgram a = .ok forms) :
    readProgram (a ++ "\n" ++ b) =
      ((readProgram b).mapError
        (ReadError.relocate (Span.move (a.utf8ByteSize + 1 + ·)))).map (forms ++ ·) := by
  rw [readProgram_eq_read, TokenStream.read, TokenStream.assemble, assembleFrom_eq] at h
  cases hconsume : (consume [] (TokenStream.ofText a).tokens).2 with
  | error e =>
    rw [hconsume] at h
    cases (formsOf_eq_ok.mp h).2
  | ok frames =>
    rw [hconsume] at h
    obtain ⟨hforms, hend⟩ := formsOf_eq_ok.mp h
    obtain ⟨rfl, stop, hfinished⟩ := endError?_eq_none.mp hend
    rw [readProgram_eq_read, readProgram_eq_read, ← TokenStream.read_move, TokenStream.read,
      TokenStream.assemble, ofText_append_of_finished b hfinished, assembleFrom_append, hconsume]
    exact formsOf_append hforms _ _

/-- A text that fails to read before its end fails in the same way with more lines behind it. -/
private theorem readProgram_append_of_error {e : ReadError} (h : readProgram a = .error e)
    (he : e.fault.isEnd = false) : readProgram (a ++ "\n" ++ b) = .error e := by
  by_cases hfault : (TokenStream.ofText a).ending = .fault e
  · rw [readProgram_eq_read] at h ⊢
    rwa [ofText_append_of_fault b hfault he]
  obtain ⟨d, -, -, hstream⟩ := exists_ofText_append a b
  rw [readProgram_eq_read, TokenStream.read, TokenStream.assemble] at h ⊢
  rw [assembleFrom_eq] at h
  rw [hstream, assembleFrom_append]
  cases hconsume : (consume [] (TokenStream.ofText a).tokens).2 with
  | error e' =>
    -- a parenthesis that closes nothing stops both texts at the same token
    rwa [hconsume] at h
  | ok frames =>
    rw [hconsume] at h
    have hne : endError? frames (TokenStream.ofText a).ending ≠ some e :=
      fun hend => hfault (eq_fault_of_endError? hend he)
    exact formsOf_append_of_error (toExprs_eq_error_of_formsOf h hne) _ _

end

/-- **Reading is compositional.** If a text reads, then with another one on the lines behind it, it
reads to the forms of both, or fails with the error of the second where that stands now. If a text
fails to read, and not because it ends, then it fails with the same error at the same place whatever
stands on the lines behind it. -/
theorem reading_composes (a b : String) :
    (∀ forms, readProgram a = .ok forms →
      (∀ later, readProgram b = .ok later →
        readProgram (a ++ "\n" ++ b) = .ok (forms ++ later)) ∧
      (∀ e, readProgram b = .error e → readProgram (a ++ "\n" ++ b) = .error ⟨e.fault,
        e.span.start + (a.utf8ByteSize + 1), e.span.stop + (a.utf8ByteSize + 1)⟩)) ∧
    (∀ e, readProgram a = .error e → e.fault ≠ .unterminatedString →
      (∀ inside, e.fault ≠ .unexpectedEnd inside) → readProgram (a ++ "\n" ++ b) = .error e) := by
  constructor
  · intro forms ha
    have happend := readProgram_append b ha
    constructor
    · intro later hb
      rw [happend, hb]
      rfl
    · intro e hb
      rw [happend, hb, Nat.add_comm e.span.start, Nat.add_comm e.span.stop]
      rfl
  · intro e ha hstring hend
    refine readProgram_append_of_error b ha ?_
    cases hfault : e.fault with
    | unterminatedString => exact absurd hfault hstring
    | unexpectedEnd inside => exact absurd hfault (hend inside)
    | _ => rfl

/-- Behind a comment of more bytes than characters a parenthesis closes nothing; an atom that is no
atom stays one. -/
theorem reading_composes_comment :
    readProgram ("x;é" ++ "\n" ++ ")") = .error ⟨.unexpectedClose, 5, 6⟩ ∧
    readProgram ("#x" ++ "\n" ++ "x") = .error ⟨.invalidAtom "#x", 0, 2⟩ := by
  have hcomment : readProgram "x;é" = .ok [.var "x"] := by cbv
  have hclose : readProgram ")" = .error ⟨.unexpectedClose, 0, 1⟩ := by cbv
  have hatom : readProgram "#x" = .error ⟨.invalidAtom "#x", 0, 2⟩ := by cbv
  constructor
  · exact ((reading_composes "x;é" ")").1 _ hcomment).2 _ hclose
  · exact (reading_composes "#x" "x").2 _ hatom (by simp) (by simp)

end WordScheme
