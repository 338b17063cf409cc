import Mathlib
import WordScheme.Datum.Assemble

/-!
# The canonical text of data

An `SExpr` is a datum without its places, and `SExpr.chars` its canonical text: the items of a list
or vector stand behind each other with one space between them. Where the text of every atom is one
that the scanner takes as one token of the right kind (`Spelling`), the text is read back: whatever
constructs are open in front of it and whatever follows, it delivers one datum, and that datum is
the `SExpr` again (`Cursor.assemble_chars`).
-/

namespace WordScheme

/-! ### Data without places -/

/-- A datum without its places. -/
inductive SExpr where
  | atom (kind : AtomKind) (text : String)
  | list (items : List SExpr)
  | vector (items : List SExpr)
  | quoted (item : SExpr)

mutual

/-- A datum without its places. -/
def Datum.sexpr : Datum → SExpr
  | .atom kind text _ => .atom kind text
  | .list items _ => .list (sexprAll items)
  | .vector items _ => .vector (sexprAll items)
  | .quoted d _ => .quoted d.sexpr

@[inherit_doc Datum.sexpr]
def sexprAll : List Datum → List SExpr
  | [] => []
  | d :: ds => d.sexpr :: sexprAll ds

end

@[simp]
theorem sexpr_sequenceDatum (vector : Bool) (items : List Datum) (span : Span) :
    (sequenceDatum vector items span).sexpr =
      if vector then .vector (sexprAll items) else .list (sexprAll items) := by
  cases vector <;> rfl

section

variable {d : Datum} {ds : List Datum} {s : SExpr} {ss : List SExpr}

theorem eq_nil_of_sexprAll (h : sexprAll ds = []) : ds = [] := by
  cases ds with
  | nil => rfl
  | cons d ds => cases h

theorem eq_cons_of_sexprAll (h : sexprAll ds = s :: ss) :
    ∃ d ds', ds = d :: ds' ∧ d.sexpr = s ∧ sexprAll ds' = ss := by
  cases ds with
  | nil => cases h
  | cons d ds => exact ⟨d, ds, rfl, List.cons.inj h⟩

/-- Only an atom is an atom without its places. -/
theorem eq_atom_of_sexpr {kind : AtomKind} {text : String} (h : d.sexpr = .atom kind text) :
    ∃ span, d = .atom kind text span := by
  cases d with
  | atom kind' text' span =>
    cases h
    exact ⟨span, rfl⟩
  | list items span => cases h
  | vector items span => cases h
  | quoted item span => cases h

theorem eq_list_of_sexpr (h : d.sexpr = .list ss) :
    ∃ items span, d = .list items span ∧ sexprAll items = ss := by
  cases d with
  | atom kind text span => cases h
  | list items span => exact ⟨items, span, rfl, SExpr.list.inj h⟩
  | vector items span => cases h
  | quoted item span => cases h

theorem eq_vector_of_sexpr (h : d.sexpr = .vector ss) :
    ∃ items span, d = .vector items span ∧ sexprAll items = ss := by
  cases d with
  | atom kind text span => cases h
  | list items span => cases h
  | vector items span => exact ⟨items, span, rfl, SExpr.vector.inj h⟩
  | quoted item span => cases h

theorem eq_quoted_of_sexpr (h : d.sexpr = .quoted s) :
    ∃ item span, d = .quoted item span ∧ item.sexpr = s := by
  cases d with
  | atom kind text span => cases h
  | list items span => cases h
  | vector items span => cases h
  | quoted item span => exact ⟨item, span, rfl, SExpr.quoted.inj h⟩

end

mutual

/-- The canonical text of a datum. -/
def SExpr.chars : SExpr → List Char
  | .atom _ text => text.toList
  | .list items => '(' :: ([' '].intercalate (charsAll items) ++ [')'])
  | .vector items => '#' :: '(' :: ([' '].intercalate (charsAll items) ++ [')'])
  | .quoted s => '\x27' :: s.chars

/-- The canonical texts of several data. -/
def charsAll : List SExpr → List (List Char)
  | [] => []
  | s :: ss => s.chars :: charsAll ss

end

/-! ### Atoms that are taken as they stand -/

/-- A text behind an atom that does not prolong it. -/
def Ends (cs : List Char) : Prop :=
  ∀ c tail, cs = c :: tail → isDelimiter c = true

/-- A delimiter ends an atom. -/
theorem ends_cons (c : Char) (cs : List Char) (h : isDelimiter c = true) : Ends (c :: cs) := by
  rintro _ _ ⟨⟩
  exact h

/-- A text that ends an atom does so whatever follows. -/
theorem Ends.append {cs : List Char} (h : Ends cs) (hne : cs ≠ []) (ds : List Char) :
    Ends (cs ++ ds) := by
  cases cs with
  | nil => exact absurd rfl hne
  | cons c cs => exact ends_cons c _ (h c cs rfl)

/-- The text of an atom of this kind: it is neither skipped nor read as anything else. -/
structure Spelling (kind : AtomKind) (cs : List Char) : Prop where
  starts : ∃ c tail, cs = c :: tail ∧ isBlank c = false ∧ c ≠ ';'
  scan : ∀ rest, Ends rest → scan (cs ++ rest) = some ⟨.ok (.atom kind), cs, rest⟩

mutual

/-- Every atom has a text of its kind. -/
def SExpr.Spelled : SExpr → Prop
  | .atom kind text => Spelling kind text.toList
  | .list items => spelledAll items
  | .vector items => spelledAll items
  | .quoted s => s.Spelled

@[inherit_doc SExpr.Spelled]
def spelledAll : List SExpr → Prop
  | [] => True
  | s :: ss => s.Spelled ∧ spelledAll ss

end

/-! ### Reading on from a cursor -/

namespace Cursor

variable {c d : Cursor} {t : Token} {frames : List Frame}

/-- The tokens of a text are its next one and those behind it. -/
theorem stream_eq (c : Cursor) : c.stream =
    match c.next with
    | (none, d) => ⟨[], .finished d.offset⟩
    | (some (.error e), _) => ⟨[], .fault e⟩
    | (some (.ok t), d) => ⟨t :: d.stream.tokens, d.stream.ending⟩ := by
  fun_cases Cursor.stream c with
  | case1 d h => rw [h]
  | case2 e d h => rw [h]
  | case3 t d h => rw [h]

/-- The data that the text from a place on completes inside the given constructs, and its error. -/
def assemble (frames : List Frame) (c : Cursor) : List Datum × Option ReadError :=
  assembleFrom c.stream.ending frames c.stream.tokens

/-- The same, after a datum has been completed. -/
def deliver (frames : List Frame) (d : Datum) (c : Cursor) : List Datum × Option ReadError :=
  let (done, frames) := place d frames
  let (later, error) := c.assemble frames
  (done.toList ++ later, error)

theorem assemble_nil (h : c.next = (none, d)) : c.assemble [] = ([], none) := by
  rw [assemble, stream_eq, h]
  rfl

theorem deliver_nil (x : Datum) : c.deliver [] x = (x :: (c.assemble []).1, (c.assemble []).2) :=
  rfl

/-- A datum within a sequence is put behind its items. -/
private theorem deliver_sequence (vector : Bool) (opening : Span) (items : List Datum) (x : Datum) :
    c.deliver (.sequence vector opening items :: frames) x =
      c.assemble (.sequence vector opening (x :: items) :: frames) :=
  rfl

/-- A quoted datum is a datum. -/
private theorem deliver_quotation (opening : Span) (x : Datum) :
    c.deliver (.quotation opening :: frames) x =
      c.deliver frames (.quoted x (opening.to x.span)) :=
  rfl

/-- An opening parenthesis opens a list. -/
private theorem assemble_list (h : c.next = (some (.ok t), d)) (ht : t.kind = .openList) :
    c.assemble frames = d.assemble (.sequence false t.span [] :: frames) := by
  rw [assemble, stream_eq, h, assembleFrom.eq_def]
  simp only [ht]
  rfl

private theorem assemble_vector (h : c.next = (some (.ok t), d)) (ht : t.kind = .openVector) :
    c.assemble frames = d.assemble (.sequence true t.span [] :: frames) := by
  rw [assemble, stream_eq, h, assembleFrom.eq_def]
  simp only [ht]
  rfl

/-- A quote opens a quotation. -/
private theorem assemble_quote (h : c.next = (some (.ok t), d)) (ht : t.kind = .quote) :
    c.assemble frames = d.assemble (.quotation t.span :: frames) := by
  rw [assemble, stream_eq, h, assembleFrom.eq_def]
  simp only [ht]
  rfl

/-- An atom is a datum. -/
private theorem assemble_atom {kind : AtomKind} (h : c.next = (some (.ok t), d))
    (ht : t.kind = .atom kind) :
    c.assemble frames = d.deliver frames (.atom kind t.text t.span) := by
  rw [assemble, stream_eq, h, assembleFrom.eq_def]
  simp only [ht]
  rfl

/-- A closing parenthesis makes the innermost sequence a datum. -/
private theorem assemble_close {vector : Bool} {opening : Span} {items : List Datum}
    (h : c.next = (some (.ok t), d)) (ht : t.kind = .closeList) :
    c.assemble (.sequence vector opening items :: frames) =
      d.deliver frames (sequenceDatum vector items.reverse (opening.to t.span)) := by
  rw [assemble, stream_eq, h, assembleFrom.eq_def]
  simp only [ht]
  rfl

/-! ### Canonical text is read back -/

/-- A token at the front of the text is taken. -/
theorem next_of_scan (offset : Nat) {first : Char} {cs taken rest : List Char} {kind : TokenKind}
    (hblank : isBlank first = false) (hcomment : first ≠ ';')
    (hscan : scan (first :: cs) = some ⟨.ok kind, taken, rest⟩) :
    ∃ span stop, Cursor.next ⟨offset, first :: cs⟩ =
      (some (.ok ⟨kind, String.ofList taken, span⟩), ⟨stop, rest⟩) := by
  refine ⟨⟨offset, offset + byteLength taken⟩, offset + byteLength taken, ?_⟩
  have hskip : Cursor.skip ⟨offset, first :: cs⟩ = ⟨offset, first :: cs⟩ := by
    simp [skip, skipFrom, hblank, hcomment]
  simp only [next, hskip, hscan]

/-- A blank at the front of the text is skipped. -/
theorem stream_blank {offset : Nat} {first : Char} (h : isBlank first = true) (cs : List Char) :
    Cursor.stream ⟨offset, first :: cs⟩ = Cursor.stream ⟨offset + first.utf8Size, cs⟩ := by
  have hskip : Cursor.skip ⟨offset, first :: cs⟩ = Cursor.skip ⟨offset + first.utf8Size, cs⟩ := by
    simp [skip, skipFrom, h]
  have hnext : Cursor.next ⟨offset, first :: cs⟩ = Cursor.next ⟨offset + first.utf8Size, cs⟩ := by
    simp only [next, hskip]
  rw [stream_eq, stream_eq, hnext]

/-- A blank is skipped. -/
theorem assemble_blank {offset : Nat} {first : Char} (h : isBlank first = true) (cs : List Char) :
    Cursor.assemble frames ⟨offset, first :: cs⟩ =
      Cursor.assemble frames ⟨offset + first.utf8Size, cs⟩ := by
  rw [assemble, assemble, stream_blank h]

/-- A sequence is delivered when it is closed. -/
private theorem exists_deliver_close {vector : Bool} {opening : Span} {start offset : Nat}
    {xs : List Datum} {cs rest : List Char}
    (h : ∀ frames, Cursor.assemble (.sequence vector opening [] :: frames)
        ⟨start, cs ++ ')' :: rest⟩ =
      Cursor.assemble (.sequence vector opening (xs.reverse ++ []) :: frames)
        ⟨offset, ')' :: rest⟩) :
    ∃ x stop, x.sexpr = (if vector then .vector (sexprAll xs) else .list (sexprAll xs)) ∧
      ∀ frames, Cursor.assemble (.sequence vector opening [] :: frames)
        ⟨start, cs ++ ')' :: rest⟩ = Cursor.deliver frames x ⟨stop, rest⟩ := by
  obtain ⟨last, stop, hclose⟩ := next_of_scan offset (by decide) (by decide)
    (show scan (')' :: rest) = _ from rfl)
  refine ⟨sequenceDatum vector xs (opening.to last), stop, sexpr_sequenceDatum .., fun frames => ?_⟩
  rw [h, assemble_close hclose rfl, List.append_nil, List.reverse_reverse]

mutual

/-- **Canonical text delivers its datum**, whatever is open in front of it. -/
theorem assemble_chars {rest : List Char} (offset : Nat) : (s : SExpr) → s.Spelled → Ends rest →
    ∃ x stop, x.sexpr = s ∧ ∀ frames, Cursor.assemble frames ⟨offset, s.chars ++ rest⟩ =
      Cursor.deliver frames x ⟨stop, rest⟩
  | .atom kind text, hs, hrest => by
    obtain ⟨first, tail, htext, hblank, hcomment⟩ := hs.starts
    have hscan := hs.scan rest hrest
    rw [htext, List.cons_append] at hscan
    obtain ⟨span, stop, hnext⟩ := next_of_scan offset hblank hcomment hscan
    refine ⟨.atom kind text span, stop, rfl, fun frames => ?_⟩
    rw [SExpr.chars, htext, List.cons_append, assemble_atom hnext rfl, ← htext,
      String.ofList_toList]
  | .list items, hs, _ => by
    obtain ⟨span, start, hopen⟩ := next_of_scan offset (by decide) (by decide)
      (show scan ('(' :: ([' '].intercalate (charsAll items) ++ ')' :: rest)) = _ from rfl)
    obtain ⟨xs, place, rfl, hitems⟩ :=
      assemble_items start items hs (ends_cons ')' rest (by decide))
    obtain ⟨x, stop, hx, hclose⟩ := exists_deliver_close (hitems false span [])
    refine ⟨x, stop, hx, fun frames => ?_⟩
    rw [← hclose, ← assemble_list hopen rfl]
    simp [SExpr.chars]
  | .vector items, hs, _ => by
    obtain ⟨span, start, hopen⟩ := next_of_scan offset (by decide) (by decide)
      (show scan ('#' :: '(' :: ([' '].intercalate (charsAll items) ++ ')' :: rest)) = _ from rfl)
    obtain ⟨xs, place, rfl, hitems⟩ :=
      assemble_items start items hs (ends_cons ')' rest (by decide))
    obtain ⟨x, stop, hx, hclose⟩ := exists_deliver_close (hitems true span [])
    refine ⟨x, stop, hx, fun frames => ?_⟩
    rw [← hclose, ← assemble_vector hopen rfl]
    simp [SExpr.chars]
  | .quoted s, hs, hrest => by
    obtain ⟨span, start, hquote⟩ := next_of_scan offset (by decide) (by decide)
      (show scan ('\x27' :: (s.chars ++ rest)) = _ from rfl)
    obtain ⟨x, stop, hx, hread⟩ := assemble_chars start s hs hrest
    refine ⟨.quoted x (span.to x.span), stop, by rw [Datum.sexpr, hx], fun frames => ?_⟩
    rw [SExpr.chars, List.cons_append, assemble_quote hquote rfl, hread, deliver_quotation]

/-- Several data one after the other are taken into the construct around them. -/
private theorem assemble_items {rest : List Char} (offset : Nat) :
    (ss : List SExpr) → spelledAll ss →
    Ends rest → ∃ xs stop, sexprAll xs = ss ∧ ∀ vector opening items frames,
      Cursor.assemble (.sequence vector opening items :: frames)
          ⟨offset, [' '].intercalate (charsAll ss) ++ rest⟩ =
        Cursor.assemble (.sequence vector opening (xs.reverse ++ items) :: frames) ⟨stop, rest⟩
  | [], _, _ => ⟨[], offset, rfl, fun _ _ _ _ => rfl⟩
  | [s], hs, hrest => by
    obtain ⟨x, stop, hx, hread⟩ := assemble_chars offset s hs.1 hrest
    refine ⟨[x], stop, by rw [sexprAll, sexprAll, hx], fun vector opening items frames => ?_⟩
    rw [charsAll, charsAll, List.intercalate_singleton, hread, deliver_sequence]
    rfl
  | s :: s' :: ss, hs, hrest => by
    obtain ⟨x, place, hx, hread⟩ := assemble_chars offset s hs.1
      (ends_cons ' ' ([' '].intercalate (charsAll (s' :: ss)) ++ rest) (by decide))
    obtain ⟨xs, stop, hxs, hitems⟩ :=
      assemble_items (place + ' '.utf8Size) (s' :: ss) hs.2 hrest
    refine ⟨x :: xs, stop, by rw [sexprAll, hx, hxs], fun vector opening items frames => ?_⟩
    have hchars : [' '].intercalate (charsAll (s :: s' :: ss)) ++ rest =
        s.chars ++ ' ' :: ([' '].intercalate (charsAll (s' :: ss)) ++ rest) := by
      simp [charsAll, List.intercalate_cons_cons]
    rw [hchars, hread, deliver_sequence, assemble_blank (by decide), hitems]
    simp

end

end Cursor

end WordScheme
