import Mathlib
import WordScheme.Proofs.NumeralGrammar

/-!
# Which blanks separate tokens

Between tokens every blank is skipped, but an atom that has begun ends only at a delimiter, and of
the blanks only the five of ASCII are delimiters. So the other blanks are kept within identifiers,
behind their first character, and within no other token but strings and characters (`scan_cut`).

To tell a blank that separates from one that does not, put a space in its place. Outside of strings,
characters and comments (`Source.Exposed`) the tokens are spelled as before exactly if none of them
took the blank along (`Source.replaced_of_exposed`). Up to the blank the two texts have the same
tokens: what a gap does is the same in front of every text (`Cursor.Crosses`), and a token that ends
in front of the blank is taken again (`scan_front`). `separators_exact` says which blanks separate
tokens wherever they stand: the delimiters and no others.
-/

namespace WordScheme

/-! ### Spellings -/

/-- The kind and text of a token, or what is wrong in its place. -/
def answerSpelling (r : Except ReadError Token) : Except ReadFault (TokenKind × String) :=
  (r.map fun t => (t.kind, t.text)).mapError ReadError.fault

/-- Strings and characters, also those that the end of the text has cut off. -/
def holdsText : Except ReadFault (TokenKind × String) → Bool
  | .ok (kind, _) => kind = .atom .string || kind = .atom .character
  | .error fault => fault.isEnd

namespace Scanned

/-- The kind and text of what was taken, or what is wrong with it. -/
def spelling (r : Scanned) : Except ReadFault (TokenKind × String) :=
  r.outcome.map fun kind => (kind, String.ofList r.taken)

/-- A token, or an invalid atom as the fault names it. -/
def Legible (r : Scanned) : Prop :=
  (∃ kind, r.outcome = .ok kind) ∨ r.outcome = .error (.invalidAtom (String.ofList r.taken))

/-- What can be read off a spelling was taken. -/
private theorem Legible.taken_eq {r r' : Scanned} (hr : r.Legible) (hr' : r'.Legible)
    (h : r.spelling = r'.spelling) : r.taken = r'.taken := by
  obtain ⟨outcome, taken, rest⟩ := r
  obtain ⟨outcome', taken', rest'⟩ := r'
  simp only [Legible] at hr hr'
  obtain ⟨kind, rfl⟩ | rfl := hr <;> obtain ⟨kind', rfl⟩ | rfl := hr' <;>
    simp_all [spelling, Except.map, String.ofList_inj]

/-- A blank behind some characters of what was taken: no delimiter, in an identifier or an invalid
atom, which ends in front of it if a space takes its place. -/
structure Cut (r : Scanned) (front : List Char) (b : Char) : Prop where
  notDelimiter : isDelimiter b = false
  outcome : r.outcome = .ok (.atom .identifier) ∨
    r.outcome = .error (.invalidAtom (String.ofList r.taken))
  again : ∀ tail, ∃ r' : Scanned, scan (front ++ ' ' :: tail) = some r' ∧ r'.taken = front ∧
    r'.Legible

private theorem Cut.legible {r : Scanned} {front : List Char} {b : Char} (h : r.Cut front b) :
    r.Legible :=
  h.outcome.imp (fun hok => ⟨_, hok⟩) id

end Scanned

/-! ### Blanks within tokens -/

/-- An atom ends in front of a space. -/
private theorem atomRun_space {front tail : List Char} (h : ∀ c ∈ front, isDelimiter c = false) :
    atomRun (front ++ ' ' :: tail) = (front, ' ' :: tail) :=
  atomRun_append_of_ends front h (ends_cons ' ' tail rfl)

/-- No blank is a sign, a digit or a point. -/
private theorem notBlank_of_classifyAtom {cs : List Char} (h : classifyAtom cs ≠ .identifier) :
    ∀ c ∈ cs, isBlank c = false := by
  have hsign : ∀ sign ∈ Numeral.optionalSign.matches', ∀ c ∈ sign, isBlank c = false := by
    intro sign hsign c hc
    obtain rfl | rfl | rfl := Numeral.mem_optionalSign.mp hsign
    · cases hc
    · cases List.mem_singleton.mp hc
      decide
    · cases List.mem_singleton.mp hc
      decide
  have hdigits : ∀ ds : List Char, (∀ c ∈ ds, c.isDigit = true) → ∀ c ∈ ds, isBlank c = false :=
    fun ds hds c hc => (plain_of_isDigit (hds c hc)).2.1
  intro c hc
  rw [Ne, (classifyAtom_fits cs).identifier, not_and_or, not_not, not_not] at h
  rcases h with hinteger | hdecimal
  · obtain ⟨sign, hs, ds, hds, rfl⟩ := Language.mem_mul.mp hinteger
    rcases List.mem_append.mp hc with hc | hc
    · exact hsign sign hs c hc
    · exact hdigits ds (Numeral.mem_digits.mp hds).2 c hc
  · obtain ⟨sign, hs, ds, hds, rfl⟩ := Language.mem_mul.mp hdecimal
    obtain ⟨whole, places, rfl, hwhole, hplaces, -⟩ := Numeral.mem_pointed.mp hds
    rcases List.mem_append.mp hc with hc | hc
    · exact hsign sign hs c hc
    · rcases List.mem_append.mp hc with hc | hc
      · exact hdigits whole hwhole c hc
      · rcases List.mem_cons.mp hc with rfl | hc
        · decide
        · exact hdigits places hplaces c hc

private theorem notBlank_of_isBooleanText {cs : List Char} (h : isBooleanText cs = true) :
    ∀ c ∈ cs, isBlank c = false := by
  have htexts : (["#t", "#f", "#true", "#false"].all fun text =>
      text.toList.all fun c => !isBlank c) = true := by cbv
  have hmem : String.ofList cs ∈ ["#t", "#f", "#true", "#false"] := by
    simpa [isBooleanText] using h
  simpa using List.all_eq_true.mp htexts _ hmem

private theorem scanHash_cut {cs front tail : List Char} {b : Char}
    (htaken : (scanHash cs).taken = '#' :: front ++ b :: tail) (hb : isBlank b = true)
    (htext : holdsText (scanHash cs).spelling = false) : (scanHash cs).Cut ('#' :: front) b := by
  revert htaken htext
  fun_cases scanHash cs with
  | case1 cs =>
    intro htaken _
    have hmem : b ∈ ['('] := (List.cons.inj htaken).2 ▸ List.mem_append_cons_self
    cases List.mem_singleton.mp hmem
    exact absurd hb (by decide)
  | case2 =>
    intro _ htext
    cases htext
  | case3 c cs run rest hrun =>
    intro _ htext
    cases htext
  | case4 cs hopen hend hback run rest hrun text =>
    intro htaken _
    obtain rfl : run = front ++ b :: tail := (List.cons.inj htaken).2
    have hplain : ∀ c ∈ front ++ b :: tail, isDelimiter c = false :=
      fun c hc => notDelimiter_of_mem_atomRun (by rwa [hrun])
    have hfront : ∀ c ∈ front, isDelimiter c = false :=
      fun c hc => hplain c (List.mem_append_left _ hc)
    have hinvalid : isBooleanText text = false :=
      Bool.eq_false_iff.mpr fun hboolean =>
        absurd hb (by simp [notBlank_of_isBooleanText hboolean b (by simp [text])])
    refine ⟨hplain b List.mem_append_cons_self, .inr (by simp [hinvalid]), fun rest' => ?_⟩
    -- neither a vector nor a character has come to stand behind the hash
    have hhead : ∀ c ∈ (front ++ ' ' :: rest').head?, c ≠ '(' ∧ c ≠ '\\' := by
      have hold := head_ne_of_hash hopen hend hback
      rw [← atomRun_append cs, hrun] at hold
      cases front with
      | nil =>
        rintro c ⟨⟩
        decide
      | cons x front => exact hold
    refine ⟨scanHash (front ++ ' ' :: rest'), rfl, ?_⟩
    rw [scanHash_of_head hhead, atomRun_space hfront]
    refine ⟨rfl, ?_⟩
    dsimp only [Scanned.Legible]
    split_ifs
    · exact .inl ⟨_, rfl⟩
    · exact .inr rfl

/-- **A blank that was taken along** is no delimiter, and does not stand in a number or a truth
value. With a space in its place only what stands in front of it is taken. -/
theorem scan_cut {cs front tail : List Char} {b : Char} {r : Scanned} (h : scan cs = some r)
    (htaken : r.taken = front ++ b :: tail) (hfront : front ≠ []) (hb : isBlank b = true)
    (htext : holdsText r.spelling = false) : r.Cut front b := by
  obtain ⟨x, front, rfl⟩ := List.exists_cons_of_ne_nil hfront
  clear hfront
  revert h
  fun_cases scan cs with
  | case1 =>
    intro h
    cases h
  | case2 cs =>
    rintro ⟨⟩
    simp at htaken
  | case3 cs =>
    rintro ⟨⟩
    simp at htaken
  | case4 cs =>
    rintro ⟨⟩
    simp at htaken
  | case5 cs taken rest hrun =>
    rintro ⟨⟩
    cases htext
  | case6 cs hrun =>
    rintro ⟨⟩
    cases htext
  | case7 cs =>
    rintro ⟨⟩
    obtain rfl : '#' = x := by
      have happend := scanHash_append cs
      rw [htaken] at happend
      exact (List.cons.inj happend).1.symm
    exact scanHash_cut htaken hb htext
  | case8 c cs h₁ h₂ h₃ h₄ h₅ run rest hrun =>
    rintro ⟨⟩
    obtain ⟨rfl, rfl⟩ : c = x ∧ run = front ++ b :: tail := List.cons.inj htaken
    have hmarks : c ∉ marks := by
      simpa [marks] using ⟨h₁, h₂, h₃, h₄, h₅⟩
    have hplain : ∀ x ∈ front ++ b :: tail, isDelimiter x = false :=
      fun x hx => notDelimiter_of_mem_atomRun (by rwa [hrun])
    have hfront : ∀ x ∈ front, isDelimiter x = false :=
      fun x hx => hplain x (List.mem_append_left _ hx)
    have hkind : classifyAtom (c :: (front ++ b :: tail)) = .identifier := by
      by_contra hne
      exact absurd hb (by simp [notBlank_of_classifyAtom hne b (by simp)])
    refine ⟨hplain b List.mem_append_cons_self, .inl (by rw [hkind]), fun rest' => ?_⟩
    rw [List.cons_append, scan_of_notMem_marks hmarks, atomRun_space hfront]
    exact ⟨_, rfl, rfl, .inl ⟨_, rfl⟩⟩

/-- What the end of the text has cut off leaves nothing behind. -/
private theorem rest_eq_nil_of_isEnd {cs : List Char} {r : Scanned} (h : scan cs = some r)
    {fault : ReadFault} (hr : r.outcome = .error fault) (hfault : fault.isEnd = true) :
    r.rest = [] := by
  have hhash : ∀ cs, (scanHash cs).outcome = .error fault → (scanHash cs).rest = [] := by
    intro cs hcs
    revert hcs
    fun_cases scanHash cs with
    | case1 cs => simp
    | case2 => exact fun _ => rfl
    | case3 c cs run rest hrun => simp
    | case4 cs hopen hend hback run rest hrun text =>
      intro hcs
      dsimp only at hcs
      split_ifs at hcs
      cases hcs
      cases hfault
  revert h
  fun_cases scan cs with
  | case6 cs hrun =>
    rintro ⟨⟩
    rfl
  | case7 cs =>
    rintro ⟨⟩
    exact hhash cs hr
  | case1 =>
    intro h
    cases h
  | _ =>
    rintro ⟨⟩
    cases hr

/-- A token in front of a blank is taken again in front of a space, unless it takes the blank
along. -/
private theorem scan_front {front after : List Char} {b : Char} {r : Scanned}
    (h : scan (front ++ b :: after) = some r) :
    (∃ mid, front = r.taken ++ mid ∧ r.rest = mid ++ b :: after ∧
      scan (front ++ ' ' :: after) = some ⟨r.outcome, r.taken, mid ++ ' ' :: after⟩) ∨
    ∃ tail, r.taken = front ++ b :: tail := by
  obtain ⟨mid, hfront, hrest⟩ | ⟨tail, htaken⟩ :
      (∃ mid, front = r.taken ++ mid ∧ r.rest = mid ++ b :: after) ∨
        ∃ tail, r.taken = front ++ b :: tail := by
    rcases List.append_eq_append_iff.mp (scan_append h) with
      ⟨mid, hmid, hrest⟩ | ⟨mid, hmid, hrest⟩
    · exact .inl ⟨mid, hmid, hrest⟩
    · cases mid with
      | nil => exact .inl ⟨[], by simpa using hmid.symm, by simpa using hrest.symm⟩
      | cons y mid =>
        cases hrest
        exact .inr ⟨mid, hmid⟩
  · refine .inl ⟨mid, hfront, hrest, ?_⟩
    have hfault : ∀ fault, r.outcome = .error fault → fault.isEnd = false := by
      intro fault hr
      refine Bool.eq_false_iff.mpr fun hend => ?_
      have hnil := rest_eq_nil_of_isEnd h hr hend
      simp [hrest] at hnil
    have hreplaces : Replaces r.rest (mid ++ ' ' :: after) := by
      rw [hrest]
      cases mid with
      | nil =>
        refine .inr ?_
        rintro c ⟨⟩
        decide
      | cons y mid => exact .inl rfl
    have hagain := scan_retake h hfault hreplaces
    rwa [← List.append_assoc, ← hfront] at hagain
  · exact .inr ⟨tail, htaken⟩

/-! ### Gaps in front of any text -/

namespace Cursor

variable {s : Source} {c d : Cursor} {before after : List Char} {b : Char} {offset p : Nat}

/-- A comment is open behind a text. -/
def Unclosed (cs : List Char) : Prop :=
  ∃ gap body, cs = gap ++ ';' :: body ∧ '\n' ∉ body

/-- What skipping does to a front, whatever text stands behind it: it stops at one of the
characters, or it goes on behind the front, within a comment only if one is open there. -/
inductive Crosses (inComment : Bool) (offset : Nat) (front : List Char) : Prop
  | stops (gap : List Char) {x : Char} {later : List Char} (hfront : front = gap ++ x :: later)
      (hskip : ∀ tail, skipFrom inComment offset (front ++ tail) =
        ⟨offset + byteLength gap, x :: later ++ tail⟩)
  | goesOn {still : Bool}
      (hskip : ∀ tail, skipFrom inComment offset (front ++ tail) =
        skipFrom still (offset + byteLength front) tail)
      (hstill : still = true → inComment = true ∧ '\n' ∉ front ∨ Unclosed front)

/-- From one character on, by the state that it leads to. -/
theorem Crosses.cons {inComment state : Bool} {x : Char} {front : List Char}
    (h : Crosses state (offset + x.utf8Size) front)
    (hskip : ∀ tail, skipFrom inComment offset (x :: front ++ tail) =
      skipFrom state (offset + x.utf8Size) (front ++ tail))
    (hstate : state = true → '\n' ∉ front →
      inComment = true ∧ '\n' ∉ x :: front ∨ Unclosed (x :: front)) :
    Crosses inComment offset (x :: front) := by
  cases h with
  | @stops gap y later hfront hstop =>
    refine .stops (x :: gap) (by rw [hfront, List.cons_append]) fun tail => ?_
    rw [hskip, hstop, byteLength_cons, Nat.add_assoc]
  | @goesOn still hthrough hstill =>
    refine .goesOn (fun tail => by rw [hskip, hthrough, byteLength_cons, Nat.add_assoc]) ?_
    intro h
    obtain ⟨hopen, hline⟩ | ⟨gap, body, rfl, hbody⟩ := hstill h
    · exact hstate hopen hline
    · exact .inr ⟨x :: gap, body, rfl, hbody⟩

private theorem crosses (inComment : Bool) (offset : Nat) (front : List Char) :
    Crosses inComment offset front := by
  induction front generalizing inComment offset with
  | nil => exact .goesOn (fun tail => rfl) fun h => .inl ⟨h, List.not_mem_nil⟩
  | cons x front ih =>
    cases inComment with
    | true =>
      refine (ih (x != '\n') _).cons (fun tail => rfl) fun hx hline => .inl ⟨rfl, ?_⟩
      simpa [eq_comm] using And.intro (bne_iff_ne.mp hx) hline
    | false =>
      by_cases hblank : isBlank x = true
      · exact (ih false _).cons (fun tail => by simp [skipFrom, hblank]) (by simp)
      · by_cases hcomment : x = ';'
        · subst hcomment
          exact (ih true _).cons (fun tail => rfl) fun _ hline => .inr ⟨[], front, rfl, hline⟩
        · refine .stops [] rfl fun tail => ?_
          simp [skipFrom, hblank, hcomment]

/-! ### Spelled tokens -/

/-- How token number `n` from a place on is spelled. -/
def spelled (c : Cursor) (n : Nat) : Option (Except ReadFault (TokenKind × String)) :=
  (Lexer.answer ⟨c, none⟩ n).map answerSpelling

/-- The kind of token number `n` from a place on, or `none` for a fault. -/
def kindAt (c : Cursor) (n : Nat) : Option (Option TokenKind) :=
  (c.spelled n).map fun r => r.toOption.map Prod.fst

/-- One call, by what is scanned at the next place. -/
private theorem exists_next_of_scan {cs : List Char} {r : Scanned} (hskip : c.skip = ⟨offset, cs⟩)
    (h : scan cs = some r) : ∃ a, c.next = (some a, ⟨offset + byteLength r.taken, r.rest⟩) ∧
      answerSpelling a = r.spelling ∧ answerSpan a = ⟨offset, offset + byteLength r.taken⟩ := by
  obtain ⟨outcome, taken, rest⟩ := r
  rw [next, hskip]
  simp only [h]
  cases outcome with
  | ok kind => exact ⟨_, rfl, rfl, rfl⟩
  | error fault => exact ⟨_, rfl, rfl, rfl⟩

private theorem spelled_zero (c : Cursor) :
    c.spelled 0 = (scan c.skip.rest).map Scanned.spelling := by
  change c.next.1.map answerSpelling = _
  cases hscan : scan c.skip.rest with
  | none => simp [next, hscan]
  | some r =>
    obtain ⟨a, hnext, hspelling, -⟩ := exists_next_of_scan rfl hscan
    rw [hnext, Option.map_some, Option.map_some, hspelling]

private theorem rest_next (c : Cursor) :
    c.next.2.rest = ((scan c.skip.rest).map Scanned.rest).getD [] := by
  cases hscan : scan c.skip.rest with
  | none =>
    simp only [next, hscan]
    exact eq_nil_of_scan hscan
  | some r =>
    obtain ⟨a, hnext, -⟩ := exists_next_of_scan rfl hscan
    rw [hnext]
    rfl

private theorem rest_skip_congr (h : c.rest = d.rest) : c.skip.rest = d.skip.rest := by
  have hzero : ∀ c : Cursor, c.skip.rest = (skipFrom false 0 c.rest).rest := fun c => by
    rw [skip, ← Nat.add_zero c.offset, skipFrom_shift]
    rfl
  rw [hzero, hzero d, h]

/-- The spellings depend on what is left at the next place alone. -/
private theorem spelled_congr (h : c.skip.rest = d.skip.rest) : c.spelled = d.spelled := by
  funext n
  induction n generalizing c d with
  | zero => rw [spelled_zero, spelled_zero, h]
  | succ n ih =>
    have hrest : c.next.2.rest = d.next.2.rest := by rw [rest_next, rest_next, h]
    exact ih (rest_skip_congr hrest)

/-- Two texts that begin with tokens of one spelling are spelled alike exactly if they are so behind
these tokens. -/
private theorem spelled_eq_iff {c' d' : Cursor} {a e : Except ReadError Token}
    (hc : c.next = (some a, c')) (hd : d.next = (some e, d'))
    (h : answerSpelling a = answerSpelling e) :
    c.spelled = d.spelled ↔ c'.spelled = d'.spelled := by
  have hzero : c.spelled 0 = d.spelled 0 := by
    change c.next.1.map answerSpelling = d.next.1.map answerSpelling
    rw [hc, hd, Option.map_some, Option.map_some, h]
  have hsucc : ∀ n, c.spelled (n + 1) = c'.spelled n ∧ d.spelled (n + 1) = d'.spelled n :=
    fun n => ⟨congrArg _ (answer_succ hc n), congrArg _ (answer_succ hd n)⟩
  refine ⟨fun heq => funext fun n => ?_, fun heq => funext fun n => ?_⟩
  · rw [← (hsucc n).1, ← (hsucc n).2, heq]
  · cases n with
    | zero => exact hzero
    | succ n => rw [(hsucc n).1, (hsucc n).2, heq]

/-- An offset that a token or fault from a place on takes along. -/
def Takes (c : Cursor) (p : Nat) : Prop :=
  ∃ n r, Lexer.answer ⟨c, none⟩ n = some r ∧ (answerSpan r).Contains p

private theorem takes_iff {a : Except ReadError Token} (h : c.next = (some a, d)) :
    c.Takes p ↔ (answerSpan a).Contains p ∨ d.Takes p := by
  have hzero : Lexer.answer ⟨c, none⟩ 0 = some a := congrArg Prod.fst h
  constructor
  · rintro ⟨_ | n, r, hr, hin⟩
    · cases hzero.symm.trans hr
      exact .inl hin
    · exact .inr ⟨n, r, answer_succ h n ▸ hr, hin⟩
  · rintro (hin | ⟨n, r, hr, hin⟩)
    · exact ⟨0, a, hzero, hin⟩
    · exact ⟨n + 1, r, (answer_succ h n).trans hr, hin⟩

/-- Answers begin at the next place or behind it. -/
private theorem skip_offset_le {n : Nat} {r : Except ReadError Token}
    (h : Lexer.answer ⟨c, none⟩ n = some r) : c.skip.offset ≤ (answerSpan r).start := by
  induction n generalizing c with
  | zero =>
    obtain ⟨hnext, -⟩ | ⟨a, taken, rest, hnext, -, -, hspan⟩ := c.next_cases
    · cases (congrArg Prod.fst hnext).symm.trans h
    · cases (congrArg Prod.fst hnext).symm.trans h
      rw [hspan]
  | succ n ih =>
    have hlater := ih (c := c.next.2) h
    have hle := c.next.2.skips_skip.offset_le
    obtain ⟨hnext, -⟩ | ⟨a, taken, rest, hnext, -⟩ := c.next_cases
    · rw [hnext] at hlater hle
      exact hle.trans hlater
    · rw [hnext] at hlater hle
      exact (Nat.le_add_right _ _).trans (hle.trans hlater)

/-- What a space in the place of a blank comes to: the spellings stay and the blank was not taken
along, or they change, and the blank was taken along and is no delimiter. -/
inductive Replaced (offset : Nat) (before : List Char) (b : Char) (after : List Char) : Prop
  | kept (hspelled : spelled ⟨offset, before ++ ' ' :: after⟩ =
        spelled ⟨offset, before ++ b :: after⟩)
      (htakes : ¬Takes ⟨offset, before ++ b :: after⟩ (offset + byteLength before))
  | cut (hspelled : spelled ⟨offset, before ++ ' ' :: after⟩ ≠
        spelled ⟨offset, before ++ b :: after⟩)
      (htakes : Takes ⟨offset, before ++ b :: after⟩ (offset + byteLength before))
      (hb : isDelimiter b = false)

/-- It comes to the same in front of a token of both texts. -/
private theorem Replaced.step {stop : Nat} {mid : List Char} {a e : Except ReadError Token}
    (h : Replaced stop mid b after) (hplace : offset + byteLength before = stop + byteLength mid)
    (hold : next ⟨offset, before ++ b :: after⟩ = (some a, ⟨stop, mid ++ b :: after⟩))
    (hnew : next ⟨offset, before ++ ' ' :: after⟩ = (some e, ⟨stop, mid ++ ' ' :: after⟩))
    (hspelling : answerSpelling a = answerSpelling e) (hstop : (answerSpan a).stop = stop) :
    Replaced offset before b after := by
  have hspelled := spelled_eq_iff hnew hold hspelling.symm
  have htakes : Takes ⟨offset, before ++ b :: after⟩ (offset + byteLength before) ↔
      Takes ⟨stop, mid ++ b :: after⟩ (stop + byteLength mid) := by
    rw [takes_iff hold, hplace, or_iff_right]
    rintro ⟨-, hlt⟩
    omega
  cases h with
  | kept hkept hnot => exact .kept (hspelled.mpr hkept) (mt htakes.mp hnot)
  | cut hchanged htaken hb => exact .cut (mt hspelled.mp hchanged) (htakes.mpr htaken) hb

/-- A character that was taken lies in the span of what was taken. -/
private theorem contains_taken (offset : Nat) (gap front tail : List Char) (b : Char) :
    Span.Contains ⟨offset + byteLength gap,
      offset + byteLength gap + byteLength (front ++ b :: tail)⟩
      (offset + byteLength (gap ++ front)) := by
  have hpos := b.utf8Size_pos
  simp only [Span.Contains, byteLength_append, byteLength_cons]
  omega

/-- A token that has taken the blank along ends in front of the space. -/
private theorem replaced_of_cut {gap front tail : List Char} {r : Scanned} (hfront : front ≠ [])
    (hskip : ∀ tail, skip ⟨offset, gap ++ front ++ tail⟩ =
      ⟨offset + byteLength gap, front ++ tail⟩)
    (hscan : scan (front ++ b :: after) = some r) (htaken : r.taken = front ++ b :: tail)
    (hb : isBlank b = true) (htext : holdsText r.spelling = false) :
    Replaced offset (gap ++ front) b after := by
  have hcut := scan_cut hscan htaken hfront hb htext
  obtain ⟨r', hscan', htaken', hlegible⟩ := hcut.again after
  obtain ⟨a, hnext, -, hspan⟩ := exists_next_of_scan (hskip _) hscan
  refine .cut (fun heq => ?_) ((takes_iff hnext).mpr (.inl ?_)) hcut.notDelimiter
  · have hzero := congrFun heq 0
    rw [spelled_zero, spelled_zero, hskip, hskip, hscan, hscan'] at hzero
    have hsame := hlegible.taken_eq hcut.legible (Option.some.inj hzero)
    rw [htaken, htaken'] at hsame
    simp at hsame
  · rw [hspan, htaken]
    exact contains_taken offset gap front tail b

end Cursor

/-! ### A space in the place of a blank -/

namespace Source

variable {s : Source} {c d : Cursor} {before after : List Char} {b : Char} {offset p : Nat}

/-- A place outside of the strings, characters and comments from a cursor on. The newline that ends
a comment counts as its part. -/
structure Exposed (s : Source) (c : Cursor) (p : Nat) : Prop where
  text : ∀ n r, Lexer.answer ⟨c, none⟩ n = some r → holdsText (answerSpelling r) = true →
    ¬(answerSpan r).Contains p
  comment : ∀ y, s.Comment y → c.offset ≤ y.start →
    (∀ n r, Lexer.answer ⟨c, none⟩ n = some r → (answerSpan r).Apart y) →
    ¬(y.start ≤ p ∧ p ≤ y.stop)

/-- What is exposed from a place on is so from behind the next token on. -/
private theorem Exposed.later {a : Except ReadError Token} (h : s.Exposed c p)
    (hnext : c.next = (some a, d)) (hle : c.offset ≤ d.offset)
    (hstop : (answerSpan a).stop ≤ d.offset) : s.Exposed d p := by
  have hsucc := Cursor.answer_succ hnext
  refine ⟨fun n r hr => h.text (n + 1) r ((hsucc n).trans hr), fun y hy hstart hapart => ?_⟩
  refine h.comment y hy (hle.trans hstart) ?_
  rintro (_ | n) r hr
  · cases (congrArg Prod.fst hnext).symm.trans hr
    exact .inl (hstop.trans hstart)
  · exact hapart n r ((hsucc n).symm.trans hr)

/-- A place at which a comment is open is not exposed. -/
private theorem not_exposed_of_unclosed (hc : Cursor.Within s ⟨offset, before ++ b :: after⟩)
    (hopen : Cursor.Unclosed before)
    (hskip : Cursor.skip ⟨offset, before ++ b :: after⟩ =
      Cursor.skipFrom true (offset + byteLength before) (b :: after)) :
    ¬s.Exposed ⟨offset, before ++ b :: after⟩ (offset + byteLength before) := by
  obtain ⟨gap, body, rfl, hbody⟩ := hopen
  obtain ⟨pre, hchars, rfl⟩ := hc
  intro hexposed
  -- the comment goes on to the end of the line
  let line := (b :: after).takeWhile (· != '\n')
  let behind := (b :: after).dropWhile (· != '\n')
  have hsplit : line ++ behind = b :: after := List.takeWhile_append_dropWhile
  have hline : '\n' ∉ line := fun hmem => by simpa using List.mem_takeWhile_imp hmem
  have hlength : byteLength (pre ++ gap ++ ';' :: (body ++ line)) =
      byteLength pre + byteLength (gap ++ ';' :: body) + byteLength line := by
    simp only [byteLength_append, byteLength_cons]
    omega
  refine hexposed.comment ⟨byteLength (pre ++ gap),
    byteLength (pre ++ gap ++ ';' :: (body ++ line))⟩ ?_ ?_ ?_ ?_
  · refine ⟨pre ++ gap, body ++ line, behind, ?_, ?_, fun c hc => ?_, rfl⟩
    · simp only [hchars, ← hsplit, List.append_assoc, List.cons_append]
    · exact fun hmem => (List.mem_append.mp hmem).elim hbody hline
    · have hhead := List.head?_dropWhile_not (· != '\n') (b :: after)
      rw [hc] at hhead
      simpa using hhead
  · rw [byteLength_append]
    exact Nat.le_add_right _ _
  · intro n r hr
    refine .inr (le_trans ?_ (Cursor.skip_offset_le hr))
    rw [hlength, hskip, Cursor.skipFrom_comment]
    exact (Cursor.skips_skipFrom _ _).offset_le
  · rw [hlength]
    simp only [byteLength_append, byteLength_cons]
    omega

/-- **A space in the place of an exposed blank** leaves the spellings as they are exactly if the
blank was not taken along, and a delimiter never was. -/
theorem replaced_of_exposed (hb : isBlank b = true)
    (hc : Cursor.Within s ⟨offset, before ++ b :: after⟩)
    (hexposed : s.Exposed ⟨offset, before ++ b :: after⟩ (offset + byteLength before)) :
    Cursor.Replaced offset before b after := by
  induction hn : before.length using Nat.strong_induction_on generalizing before offset with
  | _ n ih =>
    cases Cursor.crosses false offset before with
    | @goesOn still hskip hstill =>
      cases still with
      | true =>
        refine absurd hexposed (not_exposed_of_unclosed hc ?_ (hskip _))
        exact (hstill rfl).resolve_left (by simp)
      | false =>
        -- both the blank and the space are skipped
        have hold : Cursor.skip ⟨offset, before ++ b :: after⟩ =
            Cursor.skip ⟨offset + byteLength before + b.utf8Size, after⟩ :=
          (hskip _).trans (by rw [Cursor.skipFrom]; simp [hb, Cursor.skip])
        have hnew : Cursor.skip ⟨offset, before ++ ' ' :: after⟩ =
            Cursor.skip ⟨offset + byteLength before + 1, after⟩ := hskip _
        refine .kept (Cursor.spelled_congr ?_) ?_
        · rw [hold, hnew]
          exact Cursor.rest_skip_congr rfl
        · rintro ⟨n, r, hr, hstart, -⟩
          have hle := Cursor.skip_offset_le hr
          have hgap := (Cursor.skips_skip
            ⟨offset + byteLength before + b.utf8Size, after⟩).offset_le
          have hpos := b.utf8Size_pos
          rw [hold] at hle
          dsimp only at hgap
          omega
    | @stops gap x later hfront hskip =>
      subst hfront
      have hstops : ∀ tail, Cursor.skip ⟨offset, gap ++ x :: later ++ tail⟩ =
          ⟨offset + byteLength gap, x :: later ++ tail⟩ := hskip
      obtain ⟨r, hscan⟩ : ∃ r, scan (x :: later ++ b :: after) = some r :=
        Option.ne_none_iff_exists'.mp fun hnone => absurd (eq_nil_of_scan hnone) (by simp)
      obtain ⟨a, hnext, hspelling, hspan⟩ := Cursor.exists_next_of_scan (hstops _) hscan
      rcases scan_front hscan with ⟨mid, hfront, hrest, hagain⟩ | ⟨tail, htaken⟩
      · -- the token is in front of both, and the blank behind it
        obtain ⟨e, hnext', hspelling', -⟩ := Cursor.exists_next_of_scan (hstops _) hagain
        rw [hrest] at hnext
        have hplace : offset + byteLength (gap ++ x :: later) =
            offset + byteLength gap + byteLength r.taken + byteLength mid := by
          rw [hfront, byteLength_append, byteLength_append]
          omega
        have hlength : mid.length < n := by
          have htaken := List.length_pos_iff.mpr (scan_taken_ne_nil hscan)
          have hlength := congrArg List.length hfront
          simp only [List.length_append, List.length_cons] at hlength hn
          omega
        have hlater : s.Exposed ⟨offset + byteLength gap + byteLength r.taken, mid ++ b :: after⟩
            (offset + byteLength gap + byteLength r.taken + byteLength mid) := by
          rw [← hplace]
          refine hexposed.later hnext ?_ (by rw [hspan])
          exact (Nat.le_add_right _ _).trans (Nat.le_add_right _ _)
        have hwithin : Cursor.Within s
            ⟨offset + byteLength gap + byteLength r.taken, mid ++ b :: after⟩ := by
          have hbehind := hc.behind
          rwa [hnext] at hbehind
        exact (ih _ hlength hwithin hlater rfl).step hplace hnext hnext'
          (hspelling.trans hspelling'.symm) (by rw [hspan])
      · refine Cursor.replaced_of_cut (List.cons_ne_nil x later) hstops hscan htaken hb ?_
        refine Bool.eq_false_iff.mpr fun htext => hexposed.text 0 a ?_ (hspelling ▸ htext) ?_
        · exact congrArg Prod.fst hnext
        · rw [hspan, htaken]
          exact Cursor.contains_taken offset gap (x :: later) tail b

/-- Where the blanks of a text separate its tokens. -/
structure Separated (s : Source) : Prop where
  /-- A blank within a token other than a string or a character is no delimiter, does not stand at
  its front, and the token is an identifier. -/
  within : ∀ n t b, (Lexer.ofText s.text).answer n = some (.ok t) → t.kind ≠ .atom .string →
    t.kind ≠ .atom .character → b ∈ t.text.toList → isBlank b = true →
    isDelimiter b = false ∧ t.text.toList.head? ≠ some b ∧ t.kind = .atom .identifier
  /-- A space can take the place of an exposed blank exactly if no token and no fault has it. -/
  replaced : ∀ before b after, s.chars = before ++ b :: after → isBlank b = true →
    s.Exposed (.start s.chars) (byteLength before) →
    ((Cursor.start (before ++ ' ' :: after)).spelled = (Cursor.start s.chars).spelled ↔
      ¬(Cursor.start s.chars).Takes (byteLength before)) ∧
    (isDelimiter b = true → ¬(Cursor.start s.chars).Takes (byteLength before))

private theorem blank_within {n : Nat} {t : Token}
    (h : (Lexer.ofText s.text).answer n = some (.ok t)) (hstring : t.kind ≠ .atom .string)
    (hcharacter : t.kind ≠ .atom .character) (hmem : b ∈ t.text.toList) (hb : isBlank b = true) :
    isDelimiter b = false ∧ t.text.toList.head? ≠ some b ∧ t.kind = .atom .identifier := by
  obtain ⟨c, -, hnext⟩ := Cursor.exists_of_answer (Cursor.within_start s) h
  obtain ⟨rest, hscan⟩ := exists_scan_of_next (d := c.next.2) (Prod.ext hnext rfl)
  obtain ⟨x, cs, htext⟩ : ∃ x cs, t.text.toList = x :: cs :=
    List.exists_cons_of_ne_nil (scan_taken_ne_nil hscan)
  obtain ⟨front, tail, hsplit⟩ := List.append_of_mem hmem
  have hhead : isBlank x = false := by
    have happend := scan_append hscan
    rw [htext] at happend
    exact (notBlank_of_skipFrom happend.symm).1
  have hne : t.text.toList.head? ≠ some b := by
    rw [htext]
    rintro ⟨⟩
    exact absurd hb (by simp [hhead])
  have hfront : front ≠ [] := by
    rintro rfl
    exact hne (by rw [hsplit]; rfl)
  have hcut := scan_cut hscan hsplit hfront hb
    (by simp [holdsText, Scanned.spelling, Except.map, hstring, hcharacter])
  refine ⟨hcut.notDelimiter, hne, ?_⟩
  rcases hcut.outcome with hok | herror
  · exact Except.ok.inj hok
  · cases herror

private theorem separated (s : Source) : s.Separated where
  within _ _ _ h hstring hcharacter hmem hb := blank_within h hstring hcharacter hmem hb
  replaced before b after hchars hb hexposed := by
    have hwithin := Cursor.within_start s
    change Cursor.Within s (.start s.chars) at hwithin
    rw [hchars] at hwithin hexposed ⊢
    rw [← Nat.zero_add (byteLength before)] at hexposed ⊢
    cases replaced_of_exposed hb hwithin hexposed with
    | kept hspelled htakes => exact ⟨iff_of_true hspelled htakes, fun _ => htakes⟩
    | cut hspelled htakes hdelimiter =>
      refine ⟨iff_of_false hspelled (not_not.mpr htakes), fun h => ?_⟩
      cases h.symm.trans hdelimiter

end Source

/-- A blank that separates tokens wherever it stands: if it is exposed, a space can take its place
and the kinds of all tokens stay. -/
def Separator (b : Char) : Prop :=
  ∀ (s : Source) (before after : List Char), s.chars = before ++ b :: after →
    s.Exposed (.start s.chars) (byteLength before) →
    (Cursor.start (before ++ ' ' :: after)).kindAt = (Cursor.start s.chars).kindAt

private theorem separator_of_isDelimiter {b : Char} (hb : isBlank b = true)
    (h : isDelimiter b = true) : Separator b := by
  intro s before after hchars hexposed
  obtain ⟨hiff, hdelimiter⟩ := s.separated.replaced before b after hchars hb hexposed
  funext n
  rw [Cursor.kindAt, Cursor.kindAt, hiff.mpr (hdelimiter h)]

/-- Between two letters a blank that is no delimiter joins them to one identifier. -/
private theorem not_separator {b : Char} (hb : isBlank b = true) (h : isDelimiter b = false) :
    ¬Separator b := by
  intro hseparator
  let s := Source.ofText (String.ofList ['a', b, 'a'])
  have hchars : s.chars = ['a', b, 'a'] := String.toList_ofList
  have hrun : MaximalRun ['a', b, 'a'] [] := ⟨by simp, by simp [h]; decide, by simp⟩
  obtain ⟨a, hnext, hspelling, -⟩ := Cursor.exists_next_of_scan
    (c := .start ['a', b, 'a']) rfl (scan_maximalRun hrun (by simp))
  have hanswers : ∀ n, Lexer.answer ⟨.start ['a', b, 'a'], none⟩ (n + 1) = none :=
    fun n => (Cursor.answer_succ hnext n).trans (Cursor.answer_of_rest_eq_nil rfl n)
  have hexposed : s.Exposed (.start s.chars) (byteLength ['a']) := by
    rw [hchars]
    refine ⟨?_, ?_⟩
    · rintro (_ | n) r hr
      · cases (congrArg Prod.fst hnext).symm.trans hr
        obtain ⟨hstring, hcharacter⟩ := classifyAtom_plain ['a', b, 'a']
        rw [hspelling]
        simp [Scanned.spelling, holdsText, Except.map, hstring, hcharacter]
      · cases (hanswers n).symm.trans hr
    · rintro y ⟨before, body, after, hsplit, -⟩
      have hmem : ';' ∈ ['a', b, 'a'] := by
        rw [← hchars, hsplit]
        simp
      obtain rfl : ';' = b := by simpa using hmem
      exact absurd hb (by decide)
  -- the second letter is a token of its own only behind the space
  have hkinds := congrFun (hseparator s ['a'] ['a'] hchars hexposed) 1
  rw [hchars, Cursor.kindAt, Cursor.kindAt, Cursor.spelled, Cursor.spelled, hanswers] at hkinds
  exact absurd hkinds (by decide)

/-- **The blanks that separate tokens are the delimiters among them.** In every text the others are
kept within identifiers, behind their first characters. A blank that is exposed can give its place
to a space exactly if no token or fault has it, and one that is a delimiter always can. -/
theorem separators_exact (s : Source) (b : Char) :
    s.Separated ∧ (isBlank b = true → (Separator b ↔ isDelimiter b = true)) := by
  refine ⟨s.separated, fun hb => ⟨fun h => ?_, separator_of_isDelimiter hb⟩⟩
  by_contra hdelimiter
  exact not_separator hb (Bool.eq_false_iff.mpr hdelimiter) h

/-- A tab separates tokens everywhere, a no-break space does not. -/
theorem separators_exact_tab : Separator '\t' ∧ ¬Separator '\u00a0' := by
  refine ⟨((separators_exact (.ofText "") '\t').2 (by decide)).mpr (by decide), fun h => ?_⟩
  exact absurd (((separators_exact (.ofText "") '\u00a0').2 (by decide)).mp h) (by decide)

/-- A no-break space is a blank, but it joins two letters to one identifier. -/
theorem blank_joins_letters : isBlank '\u00a0' = true ∧
    (Lexer.ofText "a\u00a0b").answer 0 =
      some (.ok ⟨.atom .identifier, "a\u00a0b", ⟨0, 4⟩⟩) ∧
    (Lexer.ofText "a\u00a0b").answer 1 = none ∧
    (Cursor.start "a b".toList).kindAt 1 = some (some (.atom .identifier)) := by
  refine ⟨by decide, by cbv, by cbv, by cbv⟩

end WordScheme
