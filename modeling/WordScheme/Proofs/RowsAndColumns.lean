import Mathlib
import WordScheme.Proofs.TokenSpans

/-!
# Rows and columns

A row is counted by the newlines in front of an offset, from the beginning of the text on, and a
column by the bytes behind the last of them, from the offset back. Together they say where the
offset is: `row_column_identify`.

What they are compared with is read off the bytes of the text, without its characters. Rows start
at the beginning of the text and behind each byte `10` (`Source.rowStarts`); an offset stands in the
last row that starts at or before it, and its column is the distance from there
(`Source.StandsAt`). Such a byte is never a part of a longer character
(`newline_mem_utf8EncodeChar_iff`), so a boundary cuts the list of the starts in two
(`newlineEnds_append`). As the starts are in order, offsets come in the order of their rows and
columns (`Source.StandsAt.lt_iff`).
-/

namespace WordScheme

/-! ### Newlines among the bytes -/

/-- The encoding of a text that is given by its characters. -/
def encoded (cs : List Char) : List UInt8 :=
  cs.flatMap String.utf8EncodeChar

/-- The offsets just behind the newlines, in order, if the first byte stands at an offset. -/
def newlineEnds (offset : Nat) (bytes : List UInt8) : List Nat :=
  bytes.findIdxs (· == 10) (offset + 1)

private theorem encoded_append (cs ds : List Char) :
    encoded (cs ++ ds) = encoded cs ++ encoded ds :=
  List.flatMap_append

private theorem length_encoded (cs : List Char) : (encoded cs).length = byteLength cs := by
  induction cs with
  | nil => rfl
  | cons c cs ih =>
    rw [byteLength_cons, ← ih, ← String.length_utf8EncodeChar, ← List.length_append]
    rfl

/-- The byte of a newline occurs in no other character. -/
private theorem newline_mem_utf8EncodeChar_iff {c : Char} :
    10 ∈ String.utf8EncodeChar c ↔ c = '\n' := by
  constructor
  · intro h
    suffices hcode : c.val.toNat = 10 from Char.ext (UInt32.toNat_inj.mp hcode)
    revert h
    -- a single byte is the number of its character, and the bytes of others are at least 128
    fun_cases String.utf8EncodeChar c <;> intro h <;> simp [← UInt8.toNat_inj] at h <;> omega
  · rintro rfl
    decide

private theorem newline_mem_encoded_iff {cs : List Char} : 10 ∈ encoded cs ↔ '\n' ∈ cs := by
  simp [encoded, List.mem_flatMap, newline_mem_utf8EncodeChar_iff]

private theorem newlineEnds_append (offset : Nat) (cs ds : List Char) :
    newlineEnds offset (encoded (cs ++ ds)) =
      newlineEnds offset (encoded cs) ++ newlineEnds (offset + byteLength cs) (encoded ds) := by
  rw [newlineEnds, encoded_append, List.findIdxs_append, length_encoded, Nat.add_right_comm]
  rfl

private theorem newlineEnds_eq_nil {cs : List Char} (h : '\n' ∉ cs) (offset : Nat) :
    newlineEnds offset (encoded cs) = [] := by
  rw [newlineEnds, List.findIdxs_eq_nil_iff]
  intro b hb
  rw [beq_eq_false_iff_ne]
  rintro rfl
  exact h (newline_mem_encoded_iff.mp hb)

/-- There are as many newlines among the bytes as among the characters. -/
private theorem length_newlineEnds (offset : Nat) (cs : List Char) :
    (newlineEnds offset (encoded cs)).length = cs.count '\n' := by
  induction cs generalizing offset with
  | nil => rfl
  | cons c cs ih =>
    rw [← List.singleton_append, newlineEnds_append, List.length_append, ih, List.count_append]
    by_cases hc : c = '\n'
    · rw [hc]
      rfl
    · have hmem : '\n' ∉ [c] := fun h => hc (List.mem_singleton.mp h).symm
      rw [newlineEnds_eq_nil hmem, List.count_eq_zero.mpr hmem]
      rfl

private theorem lt_of_mem_newlineEnds {offset e : Nat} {bytes : List UInt8}
    (h : e ∈ newlineEnds offset bytes) : offset < e :=
  List.ge_of_mem_findIdxs e h

namespace Source

variable {s : Source} {p q row column row' column' : Nat}

/-- The offsets at which the rows of a source start: the first at its beginning, and the others just
behind its newlines. -/
def rowStarts (s : Source) : List Nat :=
  0 :: newlineEnds 0 (utf8Bytes s.text)

/-- An offset stands in the row whose start is the last one not behind it. The column counts the
bytes from that start on; rows and columns are numbered from one. -/
structure StandsAt (s : Source) (offset row column : Nat) : Prop where
  one_le_row : 1 ≤ row
  one_le_column : 1 ≤ column
  start : ∃ start, s.rowStarts[row - 1]? = some start ∧ offset = start + (column - 1)
  next : ∀ next, s.rowStarts[row]? = some next → offset < next

/-! ### The row and column of a boundary -/

/-- The last line of a text is all of it, or what stands behind the last newline. -/
private theorem lastLine_cases (cs : List Char) :
    '\n' ∉ lastLine cs ∧ (cs = lastLine cs ∨ ∃ front, cs = front ++ '\n' :: lastLine cs) := by
  have hsplit : cs = (cs.reverse.dropWhile (· != '\n')).reverse ++ lastLine cs := by
    rw [lastLine, ← List.reverse_append, List.takeWhile_append_dropWhile, List.reverse_reverse]
  refine ⟨?_, ?_⟩
  · intro h
    have hne := List.mem_takeWhile_imp (List.mem_reverse.mp h)
    simp at hne
  · cases hdropped : cs.reverse.dropWhile (· != '\n') with
    | nil =>
      rw [hdropped] at hsplit
      exact .inl hsplit
    | cons c front =>
      have hc : c = '\n' := by
        have hne : cs.reverse.dropWhile (· != '\n') ≠ [] := by simp [hdropped]
        have hhead := List.head_dropWhile_not (· != '\n') hne
        simpa [hdropped] using hhead
      rw [hdropped, hc, List.reverse_cons, List.append_assoc] at hsplit
      exact .inr ⟨front.reverse, hsplit⟩

/-- **Counting forward and searching backward agree**: the row with the number of the newlines in a
text starts where the last line does. -/
theorem exists_start (cs : List Char) :
    ∃ start, (0 :: newlineEnds 0 (encoded cs))[cs.count '\n']? = some start ∧
      byteLength cs = start + byteLength (lastLine cs) := by
  obtain ⟨hline, hcs | ⟨front, hcs⟩⟩ := lastLine_cases cs
  · rw [← hcs] at hline ⊢
    rw [List.count_eq_zero.mpr hline]
    exact ⟨0, rfl, (Nat.zero_add _).symm⟩
  · generalize lastLine cs = line at hline hcs
    subst hcs
    have hends : newlineEnds 0 (encoded (front ++ '\n' :: line)) =
        newlineEnds 0 (encoded front) ++ [byteLength front + 1] := by
      rw [List.append_cons, newlineEnds_append, newlineEnds_append, newlineEnds_eq_nil hline,
        List.append_nil, Nat.zero_add]
      rfl
    have hcount : (front ++ '\n' :: line).count '\n' =
        (newlineEnds 0 (encoded front)).length + 1 := by
      rw [List.count_append, List.count_cons_self, List.count_eq_zero.mpr hline, length_newlineEnds]
    refine ⟨byteLength front + 1, ?_, ?_⟩
    · rw [hends, hcount, List.getElem?_cons_succ, List.getElem?_concat_length]
    · rw [byteLength_append, byteLength_cons, ← Nat.add_assoc]
      rfl

/-- A boundary stands in the row and column that are counted in front of it. -/
private theorem standsAt_byteLength {before after : List Char} (h : s.chars = before ++ after) :
    s.StandsAt (byteLength before) (before.count '\n' + 1) (byteLength (lastLine before) + 1) := by
  have hstarts : s.rowStarts =
      (0 :: newlineEnds 0 (encoded before)) ++ newlineEnds (byteLength before) (encoded after) := by
    change 0 :: newlineEnds 0 (encoded s.chars) = _
    rw [h, newlineEnds_append, Nat.zero_add, List.cons_append]
  have hlength : (0 :: newlineEnds 0 (encoded before)).length = before.count '\n' + 1 := by
    rw [List.length_cons, length_newlineEnds]
  refine ⟨Nat.le_add_left 1 _, Nat.le_add_left 1 _, ?_, ?_⟩
  · obtain ⟨start, hstart, hoffset⟩ := exists_start before
    refine ⟨start, ?_, hoffset⟩
    rw [hstarts, Nat.add_sub_cancel, List.getElem?_append_left (by omega), hstart]
  · intro next hnext
    rw [hstarts, List.getElem?_append_right (by omega)] at hnext
    exact lt_of_mem_newlineEnds (List.mem_of_getElem? hnext)

/-- **A boundary has a row and a column**, and stands there. -/
theorem IsBoundary.standsAt (h : s.IsBoundary p) :
    ∃ row column, s.row? p = some row ∧ s.column? p = some column ∧ s.StandsAt p row column := by
  obtain ⟨before, after, hchars, rfl⟩ := h
  refine ⟨_, _, ?_, ?_, standsAt_byteLength hchars⟩
  · rw [row?, before?_byteLength hchars]
    rfl
  · rw [column?, before?_byteLength hchars]
    rfl

/-! ### The order of offsets -/

private theorem pairwise_rowStarts (s : Source) : s.rowStarts.Pairwise (· < ·) :=
  List.pairwise_cons.mpr ⟨fun _ h => lt_of_mem_newlineEnds h, List.pairwise_findIdxs⟩

/-- What stands in an earlier row stands before. -/
private theorem StandsAt.lt_of_row_lt (hp : s.StandsAt p row column)
    (hq : s.StandsAt q row' column') (h : row < row') : p < q := by
  obtain ⟨start, hstart, rfl⟩ := hq.start
  obtain ⟨hlength, hget⟩ := List.getElem?_eq_some_iff.mp hstart
  have hrow : row < s.rowStarts.length := by omega
  have hnext : s.rowStarts[row] ≤ start := by
    rcases Nat.eq_or_lt_of_le (Nat.le_sub_one_of_lt h) with heq | hlt
    · subst heq
      exact hget.le
    · exact hget ▸ (List.pairwise_iff_getElem.mp s.pairwise_rowStarts row _ hrow hlength hlt).le
  have hbefore := hp.next _ (List.getElem?_eq_getElem hrow)
  omega

/-- **Offsets come in the order of their rows**, and within a row in that of their columns. -/
theorem StandsAt.lt_iff (hp : s.StandsAt p row column) (hq : s.StandsAt q row' column') :
    p < q ↔ toLex (row, column) < toLex (row', column') := by
  rw [Prod.Lex.toLex_lt_toLex]
  dsimp only
  rcases Nat.lt_trichotomy row row' with hlt | rfl | hgt
  · have hbefore := hp.lt_of_row_lt hq hlt
    omega
  · obtain ⟨start, hstart, hoffset⟩ := hp.start
    obtain ⟨start', hstart', hoffset'⟩ := hq.start
    obtain rfl : start = start' := Option.some.inj (hstart.symm.trans hstart')
    have hcolumn := hp.one_le_column
    have hcolumn' := hq.one_le_column
    omega
  · have hbehind := hq.lt_of_row_lt hp hgt
    omega

/-! ### The end of the text -/

private theorem isBoundary_end (s : Source) : s.IsBoundary s.text.utf8ByteSize :=
  ⟨s.chars, [], (List.append_nil _).symm, s.byteLength_chars⟩

/-- All of the text stands in front of an offset past its end. -/
private theorem before?_of_le (h : s.text.utf8ByteSize ≤ p) :
    s.before? p = s.before? s.text.utf8ByteSize := by
  rw [before?, before?, byteLength_chars, Nat.min_eq_right h, Nat.min_self]

end Source

/-- **Row and column identify a position.** Each boundary has a row and a column and stands there;
of two boundaries the first is the one whose row is smaller, or whose column is smaller in the same
row; and offsets past the end have the row and the column of the end. -/
theorem row_column_identify (s : Source) :
    (∀ p, s.IsBoundary p →
      ∃ row column, s.row? p = some row ∧ s.column? p = some column ∧ s.StandsAt p row column) ∧
    (∀ p q, s.IsBoundary p → s.IsBoundary q →
      ∃ row column row' column', s.row? p = some row ∧ s.column? p = some column ∧
        s.row? q = some row' ∧ s.column? q = some column' ∧
        (p < q ↔ toLex (row, column) < toLex (row', column'))) ∧
    ∀ p, s.text.utf8ByteSize < p →
      ∃ row column, s.row? p = some row ∧ s.column? p = some column ∧
        s.row? s.text.utf8ByteSize = some row ∧ s.column? s.text.utf8ByteSize = some column := by
  refine ⟨fun p hp => hp.standsAt, fun p q hp hq => ?_, fun p hp => ?_⟩
  · obtain ⟨row, column, hrow, hcolumn, hat⟩ := hp.standsAt
    obtain ⟨row', column', hrow', hcolumn', hat'⟩ := hq.standsAt
    exact ⟨row, column, row', column', hrow, hcolumn, hrow', hcolumn', hat.lt_iff hat'⟩
  · obtain ⟨row, column, hrow, hcolumn, -⟩ := s.isBoundary_end.standsAt
    refine ⟨row, column, ?_, ?_, hrow, hcolumn⟩
    · rw [← hrow, Source.row?, Source.before?_of_le hp.le]
      rfl
    · rw [← hcolumn, Source.column?, Source.before?_of_le hp.le]
      rfl

/-- A row behind an accent, a row without any text, and an offset past the end. -/
theorem row_column_identify_accents :
    let s := Source.ofText "é\n\nλ("
    s.IsBoundary 3 ∧ s.IsBoundary 6 ∧ s.text.utf8ByteSize < 9 ∧
      s.row? 3 = some 2 ∧ s.column? 3 = some 1 ∧ s.StandsAt 3 2 1 ∧
      s.row? 6 = some 3 ∧ s.column? 6 = some 3 ∧ (3 < 6 ↔ toLex (2, 1) < toLex (3, 3)) ∧
      s.row? 9 = some 3 ∧ s.column? 9 = some 4 := by
  intro s
  have hchars : s.chars = ['é', '\n', '\n', 'λ', '('] := by decide
  have hp : s.IsBoundary 3 := ⟨['é', '\n'], ['\n', 'λ', '('], hchars, by decide⟩
  have hq : s.IsBoundary 6 := ⟨['é', '\n', '\n', 'λ'], ['('], hchars, by decide⟩
  have hpast : s.text.utf8ByteSize < 9 := by decide
  have hrowAt : s.row? 3 = some 2 := by decide
  have hcolumnAt : s.column? 3 = some 1 := by decide
  obtain ⟨hstands, horder, hend⟩ := row_column_identify s
  obtain ⟨row, column, hrow, hcolumn, hat⟩ := hstands 3 hp
  cases hrowAt.symm.trans hrow
  cases hcolumnAt.symm.trans hcolumn
  obtain ⟨row, column, row', column', hrow, hcolumn, hrow', hcolumn', hlt⟩ := horder 3 6 hp hq
  cases hrowAt.symm.trans hrow
  cases hcolumnAt.symm.trans hcolumn
  have hrowLater : s.row? 6 = some 3 := by decide
  have hcolumnLater : s.column? 6 = some 3 := by decide
  cases hrowLater.symm.trans hrow'
  cases hcolumnLater.symm.trans hcolumn'
  obtain ⟨row, column, hrow, hcolumn, hrow', hcolumn'⟩ := hend 9 hpast
  have hrowEnd : s.row? s.text.utf8ByteSize = some 3 := by decide
  have hcolumnEnd : s.column? s.text.utf8ByteSize = some 4 := by decide
  exact ⟨hp, hq, hpast, hrowAt, hcolumnAt, hat, hrowLater, hcolumnLater, hlt,
    hrow.trans (hrow'.symm.trans hrowEnd), hcolumn.trans (hcolumn'.symm.trans hcolumnEnd)⟩

end WordScheme
