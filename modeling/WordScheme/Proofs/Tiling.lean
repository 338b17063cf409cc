import Mathlib
import WordScheme.Proofs.Concatenation
import WordScheme.Proofs.TokenSpans
import WordScheme.Token.Lexer

/-!
# Tokens and faults tile the text

A lexer that is called again and again, also behind a fault, comes to the end of its text. The spans
of what it gives on the way are not empty, lie between characters of the text and follow each other
without an overlap. What they leave out is blank or belongs to a comment, and a comment is left out
as a whole. All this is `Source.Tiled`, and `lexing_tiles` says it of every text.

What is moved over between two tokens is the relation `Cursor.Skips`, blanks and whole comments one
after the other. One call takes a cursor over such a gap and over one span (`Cursor.next_cases`), so
what tiles the text behind the call tiles it in front of it, with the span put first
(`Source.Tiled.cons`).
-/

namespace WordScheme

/-! ### Answers of a lexer -/

namespace Lexer

/-- The lexer after so many calls of `next`. -/
def after : Lexer → Nat → Lexer
  | l, 0 => l
  | l, n + 1 => l.next.2.after n

/-- What call number `n` of `next` gives, counted from zero. The calls go on behind a fault. -/
def answer (l : Lexer) (n : Nat) : Option (Except ReadError Token) :=
  (l.after n).next.1

end Lexer

/-- Where a token or fault stands. -/
def answerSpan : Except ReadError Token → Span
  | .ok t => t.span
  | .error e => e.span

/-! ### Tilings -/

/-- An offset within a span. -/
def Span.Contains (span : Span) (offset : Nat) : Prop :=
  span.start ≤ offset ∧ offset < span.stop

/-- Two spans without an overlap. -/
def Span.Apart (x y : Span) : Prop :=
  x.stop ≤ y.start ∨ y.stop ≤ x.start

namespace Source

variable {s : Source}

/-- A comment runs from a semicolon up to the next newline, or to the end of the text. -/
def Comment (s : Source) (span : Span) : Prop :=
  ∃ before body after, s.chars = before ++ ';' :: body ++ after ∧ '\n' ∉ body ∧
    (∀ c ∈ after.head?, c = '\n') ∧
    span = ⟨byteLength before, byteLength (before ++ ';' :: body)⟩

/-- Spans that tile a text from an offset on. -/
structure Tiled (s : Source) (offset : Nat) (spans : List Span) : Prop where
  from_le : ∀ x ∈ spans, offset ≤ x.start
  nonempty : ∀ x ∈ spans, x.start < x.stop
  covers : ∀ x ∈ spans, s.Covers x
  ordered : spans.Pairwise fun x y => x.stop ≤ y.start
  /-- A character outside of the spans is blank, or in a comment apart from all of them. -/
  left_out : ∀ before c after, s.chars = before ++ c :: after → offset ≤ byteLength before →
    (∀ x ∈ spans, ¬x.Contains (byteLength before)) →
    isBlank c = true ∨ ∃ y, s.Comment y ∧ offset ≤ y.start ∧ y.Contains (byteLength before) ∧
      ∀ x ∈ spans, x.Apart y

/-! ### Places in a text -/

/-- A character that does not stand in front of a place stands at it, or behind the character that
stands there. -/
private theorem eq_or_le_of_boundary {pre before cs after : List Char} {x c : Char}
    (hx : s.chars = pre ++ x :: cs) (hc : s.chars = before ++ c :: after)
    (hle : byteLength pre ≤ byteLength before) :
    c = x ∨ byteLength pre + x.utf8Size ≤ byteLength before := by
  rcases List.append_eq_append_iff.mp (hx.symm.trans hc) with ⟨mid, rfl, hmid⟩ | ⟨mid, rfl, hmid⟩
  · cases mid with
    | nil =>
      cases hmid
      exact .inl rfl
    | cons y mid =>
      cases hmid
      refine .inr ?_
      rw [byteLength_append, byteLength_cons]
      omega
  · -- the place cannot lie behind the character
    cases mid with
    | nil =>
      cases hmid
      exact .inl rfl
    | cons y mid =>
      have hpos := y.utf8Size_pos
      rw [byteLength_append, byteLength_cons] at hle
      omega

end Source

/-! ### Gaps -/

namespace Cursor

variable {s : Source} {c d : Cursor}

/-- From one place to another over blanks and whole comments. -/
inductive Skips : Cursor → Cursor → Prop
  | refl (c : Cursor) : Skips c c
  | blank {offset : Nat} {x : Char} {cs : List Char} {d : Cursor} (hx : isBlank x = true)
      (hd : Skips ⟨offset + x.utf8Size, cs⟩ d) : Skips ⟨offset, x :: cs⟩ d
  | comment {offset : Nat} {body cs : List Char} {d : Cursor} (hbody : '\n' ∉ body)
      (hend : ∀ c ∈ cs.head?, c = '\n')
      (hd : Skips ⟨offset + byteLength (';' :: body), cs⟩ d) :
      Skips ⟨offset, ';' :: body ++ cs⟩ d

/-- The newline behind a comment is skipped as a blank. -/
theorem skipFrom_comment (offset : Nat) (cs : List Char) :
    skipFrom true offset cs = skipFrom false (offset + byteLength (cs.takeWhile (· != '\n')))
      (cs.dropWhile (· != '\n')) := by
  induction cs generalizing offset with
  | nil => rfl
  | cons x cs ih =>
    by_cases hx : x = '\n'
    · subst hx
      rfl
    · have hne : (x != '\n') = true := by simpa using hx
      have htake : (x :: cs).takeWhile (· != '\n') = x :: cs.takeWhile (· != '\n') :=
        List.takeWhile_cons_of_pos hne
      have hdrop : (x :: cs).dropWhile (· != '\n') = cs.dropWhile (· != '\n') :=
        List.dropWhile_cons_of_pos hne
      rw [skipFrom, if_pos rfl, hne, ih, htake, hdrop, byteLength_cons, Nat.add_assoc]

theorem skips_skipFrom (offset : Nat) (cs : List Char) :
    Skips ⟨offset, cs⟩ (skipFrom false offset cs) := by
  induction hn : cs.length using Nat.strong_induction_on generalizing offset cs with
  | _ n ih =>
    cases cs with
    | nil => exact .refl _
    | cons x cs =>
      rw [List.length_cons] at hn
      rw [skipFrom, if_neg Bool.false_ne_true]
      split_ifs with hblank hcomment
      · exact .blank hblank (ih _ (by omega) _ _ rfl)
      · cases beq_iff_eq.mp hcomment
        rw [skipFrom_comment, Nat.add_assoc]
        conv_lhs => rw [← List.takeWhile_append_dropWhile (p := (· != '\n')) (l := cs)]
        refine .comment ?_ ?_ (ih _ ?_ _ _ rfl)
        · intro hmem
          simpa using List.mem_takeWhile_imp hmem
        · intro c hc
          have hhead := List.head?_dropWhile_not (· != '\n') cs
          rw [hc] at hhead
          simpa using hhead
        · have hle := (List.dropWhile_suffix (l := cs) (· != '\n')).length_le
          omega
      · exact .refl _

theorem Skips.offset_le (h : c.Skips d) : c.offset ≤ d.offset := by
  induction h with
  | refl c => exact le_refl _
  | blank hx hd ih => exact (Nat.le_add_right _ _).trans ih
  | comment hbody hend hd ih => exact (Nat.le_add_right _ _).trans ih

theorem skips_skip (c : Cursor) : c.Skips c.skip :=
  skips_skipFrom c.offset c.rest

/-- From a place over the text behind it. -/
theorem Within.over {offset : Nat} {cs rest : List Char} (h : Within s ⟨offset, cs ++ rest⟩) :
    Within s ⟨offset + byteLength cs, rest⟩ := by
  obtain ⟨before, hchars, rfl⟩ := h
  exact ⟨before ++ cs, by rw [hchars, List.append_assoc], byteLength_append before cs⟩

/-- Every character of a gap is blank or in a comment of the gap. -/
private theorem Skips.left_out (h : c.Skips d) (hc : c.Within s) {before after : List Char}
    {x : Char} (hchars : s.chars = before ++ x :: after) (hle : c.offset ≤ byteLength before)
    (hlt : byteLength before < d.offset) :
    isBlank x = true ∨ ∃ y, s.Comment y ∧ c.offset ≤ y.start ∧ y.stop ≤ d.offset ∧
      y.Contains (byteLength before) := by
  induction h with
  | refl c => omega
  | @blank offset z cs d hz hd ih =>
    have hnext : Within s ⟨offset + byteLength [z], cs⟩ := hc.over
    obtain ⟨pre, hpre, rfl⟩ := hc
    rcases Source.eq_or_le_of_boundary hpre hchars hle with rfl | hbehind
    · exact .inl hz
    · obtain hblank | ⟨y, hy, hfrom, hto⟩ := ih hnext hbehind hlt
      · exact .inl hblank
      · exact .inr ⟨y, hy, (Nat.le_add_right _ _).trans hfrom, hto⟩
  | @comment offset body cs d hbody hend hd ih =>
    have hnext := hc.over
    obtain ⟨pre, hpre, rfl⟩ := hc
    by_cases hin : byteLength before < byteLength pre + byteLength (';' :: body)
    · refine .inr ⟨⟨byteLength pre, byteLength (pre ++ ';' :: body)⟩, ?_, le_refl _, ?_, hle, ?_⟩
      · exact ⟨pre, body, cs, by rw [hpre, List.append_assoc], hbody, hend, rfl⟩
      · rw [byteLength_append]
        exact hd.offset_le
      · rwa [byteLength_append]
    · obtain hblank | ⟨y, hy, hfrom, hto⟩ := ih hnext (Nat.le_of_not_lt hin) hlt
      · exact .inl hblank
      · exact .inr ⟨y, hy, (Nat.le_add_right _ _).trans hfrom, hto⟩

/-! ### Calls -/

/-- One call: the end of the text, or a token or fault that takes the text from the next place. -/
theorem next_cases (c : Cursor) : c.next = (none, c.skip) ∧ c.skip.rest = [] ∨
    ∃ r taken rest, c.next = (some r, ⟨c.skip.offset + byteLength taken, rest⟩) ∧ taken ≠ [] ∧
      c.skip.rest = taken ++ rest ∧
      answerSpan r = ⟨c.skip.offset, c.skip.offset + byteLength taken⟩ := by
  rw [next]
  dsimp only
  cases hscan : scan c.skip.rest with
  | none => exact .inl ⟨rfl, eq_nil_of_scan hscan⟩
  | some r =>
    obtain ⟨outcome, taken, rest⟩ := r
    refine .inr ⟨_, taken, rest, rfl, scan_taken_ne_nil hscan, (scan_append hscan).symm, ?_⟩
    cases outcome <;> rfl

/-- The calls behind the first are those from the place to which it leads. -/
theorem answer_succ {r : Option (Except ReadError Token)} (h : c.next = (r, d)) (n : Nat) :
    Lexer.answer ⟨c, none⟩ (n + 1) = Lexer.answer ⟨d, none⟩ n := by
  change Lexer.answer ⟨c.next.2, none⟩ n = _
  rw [h]

/-- At the end of the text every call finds nothing. -/
theorem answer_of_rest_eq_nil (h : c.rest = []) (n : Nat) : Lexer.answer ⟨c, none⟩ n = none := by
  obtain ⟨offset, rest⟩ := c
  cases h
  induction n with
  | zero => rfl
  | succ n ih => exact ih

end Cursor

namespace Source

variable {s : Source} {c d : Cursor}

/-- Behind the last token there is only a gap. -/
private theorem tiled_nil (hskips : c.Skips d) (hc : c.Within s) (hd : d.Within s)
    (hrest : d.rest = []) : s.Tiled c.offset [] where
  from_le := by simp
  nonempty := by simp
  covers := by simp
  ordered := .nil
  left_out before x after hchars hle _ := by
    have hlt : byteLength before < d.offset := by
      obtain ⟨pre, hpre, hoffset⟩ := hd
      rw [hrest, List.append_nil] at hpre
      have hpos := x.utf8Size_pos
      rw [← hoffset, ← hpre, hchars, byteLength_append, byteLength_cons]
      omega
    obtain hblank | ⟨y, hy, hfrom, -, hin⟩ := hskips.left_out hc hchars hle hlt
    · exact .inl hblank
    · exact .inr ⟨y, hy, hfrom, hin, by simp⟩

/-- **What tiles the text behind a token tiles it in front of it**, with the span of the token put
first. -/
theorem Tiled.cons {taken rest : List Char} {spans : List Span}
    (h : s.Tiled (d.offset + byteLength taken) spans) (hskips : c.Skips d) (hc : c.Within s)
    (hd : d.Within s) (hrest : d.rest = taken ++ rest) (htaken : taken ≠ []) :
    s.Tiled c.offset (⟨d.offset, d.offset + byteLength taken⟩ :: spans) := by
  have hgap := hskips.offset_le
  have hpos : 0 < byteLength taken := by
    obtain ⟨x, tail, rfl⟩ := List.exists_cons_of_ne_nil htaken
    have := x.utf8Size_pos
    rw [byteLength_cons]
    omega
  have hcovers : s.Covers ⟨d.offset, d.offset + byteLength taken⟩ := by
    obtain ⟨pre, hpre, hoffset⟩ := hd
    have hholds : s.Holds ⟨d.offset, d.offset + byteLength taken⟩ taken :=
      ⟨pre, rest, by rw [hpre, hrest, List.append_assoc], hoffset.symm,
        by rw [byteLength_append, hoffset]⟩
    exact hholds.covers
  refine ⟨?_, ?_, ?_, ?_, ?_⟩
  · refine List.forall_mem_cons.mpr ⟨hgap, fun x hx => ?_⟩
    have := h.from_le x hx
    omega
  · exact List.forall_mem_cons.mpr ⟨Nat.lt_add_of_pos_right hpos, h.nonempty⟩
  · exact List.forall_mem_cons.mpr ⟨hcovers, h.covers⟩
  · exact List.pairwise_cons.mpr ⟨h.from_le, h.ordered⟩
  · intro before x after hchars hle hout
    obtain ⟨hfirst, hothers⟩ := List.forall_mem_cons.mp hout
    -- in the gap in front of the token, or behind the token
    rcases Nat.lt_or_ge (byteLength before) d.offset with hlt | hge
    · obtain hblank | ⟨y, hy, hfrom, hto, hin⟩ := hskips.left_out hc hchars hle hlt
      · exact .inl hblank
      · refine .inr ⟨y, hy, hfrom, hin, List.forall_mem_cons.mpr ⟨.inr hto, fun z hz => ?_⟩⟩
        have := h.from_le z hz
        exact .inr (by omega)
    · have hbehind : d.offset + byteLength taken ≤ byteLength before :=
        Nat.le_of_not_lt fun hlt => hfirst ⟨hge, hlt⟩
      obtain hblank | ⟨y, hy, hfrom, hin, hapart⟩ :=
        h.left_out before x after hchars hbehind hothers
      · exact .inl hblank
      · exact .inr ⟨y, hy, by omega, hin, List.forall_mem_cons.mpr ⟨.inl hfrom, hapart⟩⟩

/-- From every place on, the calls come to the end of the text, and what they give tiles it. -/
private theorem exists_answers (hc : c.Within s) : ∃ answers : List (Except ReadError Token),
    (∀ n, Lexer.answer ⟨c, none⟩ n = answers[n]?) ∧
      s.Tiled c.offset (answers.map answerSpan) := by
  induction hn : c.rest.length using Nat.strong_induction_on generalizing c with
  | _ n ih =>
    have hskip : c.skip.Within s := (Cursor.within_skipFrom false c.offset c.rest hc).1
    obtain ⟨hnext, hrest⟩ | ⟨r, taken, rest, hnext, htaken, hrest, hspan⟩ := c.next_cases
    · refine ⟨[], fun n => ?_, tiled_nil c.skips_skip hc hskip hrest⟩
      cases n with
      | zero => exact congrArg Prod.fst hnext
      | succ n => exact (Cursor.answer_succ hnext n).trans (Cursor.answer_of_rest_eq_nil hrest n)
    · have hlater : Cursor.Within s ⟨c.skip.offset + byteLength taken, rest⟩ :=
        Cursor.Within.over (hrest ▸ hskip)
      have hless := hn ▸ Cursor.next_length_lt hnext
      obtain ⟨answers, hanswers, htiled⟩ := ih _ hless hlater rfl
      refine ⟨r :: answers, fun n => ?_, ?_⟩
      · cases n with
        | zero => exact congrArg Prod.fst hnext
        | succ n => exact (Cursor.answer_succ hnext n).trans (hanswers n)
      · rw [List.map_cons, hspan]
        exact htiled.cons c.skips_skip hc hskip hrest htaken

end Source

/-- **Tokens and faults tile the text.** Called again and again, a lexer comes to the end of its
text after finitely many answers and stays there; the spans of the answers are not empty, lie
between characters of the text and come in order without an overlap, and every character outside of
them is blank or belongs to a comment. -/
theorem lexing_tiles (s : Source) : ∃ answers : List (Except ReadError Token),
    (∀ n, (Lexer.ofText s.text).answer n = answers[n]?) ∧ s.Tiled 0 (answers.map answerSpan) :=
  Source.exists_answers (Cursor.within_start s)

-- a quote in a comment, and a quote that is not closed behind a fault
example : (List.range 4).map (fun n => ((Lexer.ofText "é ;\"\n#q\"").answer n).map answerSpan) =
    [some ⟨0, 2⟩, some ⟨6, 8⟩, some ⟨8, 9⟩, none] := by cbv

end WordScheme
