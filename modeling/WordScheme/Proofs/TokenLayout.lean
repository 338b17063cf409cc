import Mathlib
import WordScheme.Proofs.AtomSpellings
import WordScheme.Proofs.ReadingSafety
import WordScheme.Proofs.Relocation

/-!
# Layout between tokens

What a token is depends on its own characters and on little of what follows: an atom ends where a
delimiter stands, and a hash alone must not stand in front of a parenthesis. So a token is taken
again from its own text in front of any text that starts alike or with white space
(`scan_retake`), and the tokens of a text can be set anew with other white space between them
(`unplaced_spaced`). Reading does not look at the places of the tokens (`TokenStream.read_move`),
so it comes to the same forms, or to the same fault somewhere else (`layout_irrelevant`).
-/

namespace WordScheme

/-! ### What may stand behind a token -/

/-- White space of ASCII. -/
def isSpace (c : Char) : Bool :=
  [' ', '\t', '\n', '\x0c', '\r'].contains c

/-- The spaces are five. -/
private theorem eq_of_isSpace {c : Char} (h : isSpace c = true) :
    c = ' ' ∨ c = '\t' ∨ c = '\n' ∨ c = '\x0c' ∨ c = '\r' := by
  simpa [isSpace] using h

private theorem isDelimiter_of_isSpace {c : Char} (h : isSpace c = true) :
    isDelimiter c = true := by
  obtain rfl | rfl | rfl | rfl | rfl := eq_of_isSpace h <;> decide

private theorem isBlank_of_isSpace {c : Char} (h : isSpace c = true) : isBlank c = true := by
  obtain rfl | rfl | rfl | rfl | rfl := eq_of_isSpace h <;> decide

/-- A text that may take the place of another one behind a token: it starts with the same character,
or with white space, or it is empty. -/
def Replaces (rest rest' : List Char) : Prop :=
  rest'.head? = rest.head? ∨ ∀ c ∈ rest'.head?, isSpace c = true

/-- A fault that comes from the end of the text. -/
def ReadFault.isEnd : ReadFault → Bool
  | .unterminatedString => true
  | .unexpectedEnd _ => true
  | _ => false

/-! ### Tokens are taken again -/

/-- What comes behind an atom delimits it. -/
private theorem isDelimiter_of_head?_atomRun {cs : List Char} {c : Char}
    (h : (atomRun cs).2.head? = some c) : isDelimiter c = true := by
  have hhead := List.head?_dropWhile_not (fun c => !isDelimiter c) cs
  change (cs.dropWhile fun c => !isDelimiter c).head? = some c at h
  rw [h] at hhead
  simpa using hhead

/-- The run of an atom is the same in front of a text that starts alike. -/
private theorem atomRun_replace {cs run rest rest' : List Char} (hrun : atomRun cs = (run, rest))
    (h : Replaces rest rest') : atomRun (run ++ rest') = (run, rest') := by
  obtain ⟨rfl, rfl⟩ := Prod.mk.inj hrun
  refine atomRun_append_of_ends _ (fun c hc => notDelimiter_of_mem_atomRun hc) ?_
  rintro c tail rfl
  rcases h with h | h
  · exact isDelimiter_of_head?_atomRun h.symm
  · exact isDelimiter_of_isSpace (h c rfl)

/-- A string is the same whatever comes behind it. -/
private theorem stringRun?_replace {cs taken rest : List Char}
    (h : stringRun? cs = some (taken, rest))
    (rest' : List Char) : stringRun? (taken ++ rest') = some (taken, rest') := by
  fun_induction stringRun? cs generalizing taken rest with
  | case1 => cases h
  | case2 cs =>
    cases h
    rfl
  | case3 c cs ih =>
    obtain ⟨⟨t, r⟩, ht, hr⟩ := Option.map_eq_some_iff.mp h
    cases hr
    simp [stringRun?, ih ht]
  | case4 c cs hquote hback ih =>
    obtain ⟨⟨t, r⟩, ht, hr⟩ := Option.map_eq_some_iff.mp h
    cases hr
    -- a backslash here would be the last character, and no string ends with it
    have hne : c ≠ '\\' := by
      rintro rfl
      cases cs with
      | nil => cases ht
      | cons x xs => exact hback x xs rfl rfl
    rw [List.cons_append, stringRun?, ih ht]
    · rfl
    · exact hquote
    · exact fun _ _ hc _ => hne hc

/-- A hash in front of anything but a parenthesis or a backslash. -/
theorem scanHash_of_head {cs : List Char} (h : ∀ c ∈ cs.head?, c ≠ '(' ∧ c ≠ '\\') :
    scanHash cs = ⟨if isBooleanText ('#' :: (atomRun cs).1) then .ok (.atom .boolean)
      else .error (.invalidAtom (String.ofList ('#' :: (atomRun cs).1))),
      '#' :: (atomRun cs).1, (atomRun cs).2⟩ := by
  rw [scanHash]
  · rintro cs rfl
    exact (h _ rfl).1 rfl
  · rintro rfl
    exact (h _ rfl).2 rfl
  · rintro c cs rfl
    exact (h _ rfl).2 rfl

/-- The character behind a hash that begins neither a vector nor a character. -/
theorem head_ne_of_hash {cs : List Char} (hopen : ∀ xs, cs = '(' :: xs → False)
    (hend : cs = ['\\'] → False) (hback : ∀ y ys, cs = '\\' :: y :: ys → False) :
    ∀ c ∈ cs.head?, c ≠ '(' ∧ c ≠ '\\' := by
  cases cs with
  | nil =>
    intro c hc
    cases hc
  | cons x xs =>
    rintro c ⟨⟩
    refine ⟨fun hx => hopen xs (by rw [hx]), ?_⟩
    rintro rfl
    cases xs with
    | nil => exact hend rfl
    | cons y ys => exact hback y ys rfl

/-- What is scanned behind a hash is the same whatever comes behind it. -/
private theorem scanHash_retake (cs : List Char)
    (hfault : ∀ fault, (scanHash cs).outcome = .error fault → fault.isEnd = false)
    {rest : List Char} (hrest : Replaces (scanHash cs).rest rest) :
    scan ((scanHash cs).taken ++ rest) =
      some ⟨(scanHash cs).outcome, (scanHash cs).taken, rest⟩ := by
  revert hfault hrest
  fun_cases scanHash cs with
  | case1 cs => exact fun _ _ => rfl
  | case2 =>
    intro hfault
    cases hfault _ rfl
  | case3 c cs run rest' hrun =>
    intro _ hrest
    change some (scanHash ('\\' :: c :: (run ++ rest))) = _
    rw [scanHash, atomRun_replace hrun hrest]
  | case4 cs hopen hend hback run rest' hrun text =>
    intro _ hrest
    have hcs : run ++ rest' = cs := by
      rw [← atomRun_append cs, hrun]
    -- without a run the character behind the hash decides, and it has not become a parenthesis
    have hhead : ∀ c ∈ (run ++ rest).head?, c ≠ '(' ∧ c ≠ '\\' := by
      have hold := head_ne_of_hash hopen hend hback
      cases run with
      | cons x xs => exact fun c hc => hold c (by rw [← hcs]; exact hc)
      | nil =>
        intro c hc
        rcases hrest with hsame | hspace
        · exact hold c (by rw [← hcs]; exact hsame ▸ hc)
        · obtain rfl | rfl | rfl | rfl | rfl := eq_of_isSpace (hspace c hc) <;> decide
    change some (scanHash (run ++ rest)) = _
    rw [scanHash_of_head hhead, atomRun_replace hrun hrest]

/-- **A token is taken again** from its own text, in front of any text that starts like what stood
behind it, or with white space. So is a fault, unless the end of the text has caused it. -/
theorem scan_retake {cs : List Char} {s : Scanned} (h : scan cs = some s)
    (hfault : ∀ fault, s.outcome = .error fault → fault.isEnd = false)
    {rest : List Char} (hrest : Replaces s.rest rest) :
    scan (s.taken ++ rest) = some ⟨s.outcome, s.taken, rest⟩ := by
  revert h
  fun_cases scan cs with
  | case1 =>
    intro h
    cases h
  | case2 cs =>
    rintro ⟨⟩
    rfl
  | case3 cs =>
    rintro ⟨⟩
    rfl
  | case4 cs =>
    rintro ⟨⟩
    rfl
  | case5 cs taken rest' hrun =>
    rintro ⟨⟩
    simp [scan, stringRun?_replace hrun rest]
  | case6 cs hrun =>
    rintro ⟨⟩
    cases hfault _ rfl
  | case7 cs =>
    rintro ⟨⟩
    exact scanHash_retake cs hfault hrest
  | case8 c cs h₁ h₂ h₃ h₄ h₅ run rest' hrun =>
    rintro ⟨⟩
    have hmarks : c ∉ marks := by
      simpa [marks] using ⟨h₁, h₂, h₃, h₄, h₅⟩
    rw [List.cons_append, scan_of_notMem_marks hmarks, atomRun_replace hrun hrest]

/-! ### Tokens with other white space between them -/

/-- A token that is taken as it stands wherever white space or the end of the text follows. -/
structure Token.Solid (t : Token) : Prop where
  starts : ∃ first tail, t.text.toList = first :: tail ∧ isBlank first = false ∧ first ≠ ';'
  scan : ∀ rest : List Char, (∀ c ∈ rest.head?, isSpace c = true) →
    scan (t.text.toList ++ rest) = some ⟨.ok t.kind, t.text.toList, rest⟩

namespace Cursor

variable {c d : Cursor} {t : Token}

/-- A token is scanned again from its own text. -/
private theorem solid_of_next (h : c.next = (some (.ok t), d)) : t.Solid := by
  obtain ⟨rest, hscan⟩ := exists_scan_of_next h
  refine ⟨?_, fun rest' hrest' => scan_retake hscan nofun (.inr hrest')⟩
  obtain ⟨first, tail, htext⟩ := List.exists_cons_of_ne_nil (scan_taken_ne_nil hscan)
  have happend := scan_append hscan
  rw [htext] at happend
  exact ⟨first, tail, htext, notBlank_of_skipFrom happend.symm⟩

/-- The tokens of a text are scanned again from their own texts. -/
private theorem solid_of_mem_stream (c : Cursor) : ∀ t ∈ c.stream.tokens, t.Solid := by
  fun_induction Cursor.stream c with
  | case1 c d h =>
    intro t ht
    cases ht
  | case2 c e d h =>
    intro t ht
    cases ht
  | case3 c t d h later ih =>
    intro u hu
    rcases List.mem_cons.mp hu with rfl | hu
    · exact solid_of_next h
    · exact ih u hu

/-- White space at the front of the text is skipped. -/
private theorem exists_stream_space (offset : Nat) {gap : List Char}
    (h : ∀ c ∈ gap, isSpace c = true) (cs : List Char) :
    ∃ stop, Cursor.stream ⟨offset, gap ++ cs⟩ = Cursor.stream ⟨stop, cs⟩ := by
  induction gap generalizing offset with
  | nil => exact ⟨offset, rfl⟩
  | cons c gap ih =>
    obtain ⟨hc, hgap⟩ := List.forall_mem_cons.mp h
    obtain ⟨stop, hstop⟩ := ih (offset + c.utf8Size) hgap
    exact ⟨stop, by rw [List.cons_append, stream_blank (isBlank_of_isSpace hc), hstop]⟩

/-- A solid token at the front of the text is taken. -/
private theorem exists_stream_solid (offset : Nat) (ht : t.Solid) {rest : List Char}
    (hrest : ∀ c ∈ rest.head?, isSpace c = true) :
    ∃ span stop, Cursor.stream ⟨offset, t.text.toList ++ rest⟩ =
      ⟨⟨t.kind, t.text, span⟩ :: (Cursor.stream ⟨stop, rest⟩).tokens,
        (Cursor.stream ⟨stop, rest⟩).ending⟩ := by
  obtain ⟨first, tail, htext, hblank, hcomment⟩ := ht.starts
  have hscan := ht.scan rest hrest
  rw [htext, List.cons_append] at hscan
  obtain ⟨span, stop, hnext⟩ := next_of_scan offset hblank hcomment hscan
  refine ⟨span, stop, ?_⟩
  rw [htext, List.cons_append, stream_eq, hnext, ← htext, String.ofList_toList]

end Cursor

/-- A text of tokens, each with the white space behind it. -/
def spacedChars (spaced : List (Token × List Char)) : List Char :=
  spaced.flatMap fun (t, gap) => t.text.toList ++ gap

/-- The same stream without its places. -/
abbrev TokenStream.unplaced (s : TokenStream) : TokenStream :=
  s.move fun _ => 0

/-- Tokens with spaces between them are scanned again, up to their places. -/
private theorem unplaced_spaced (spaced : List (Token × List Char))
    (hsolid : ∀ p ∈ spaced, p.1.Solid)
    (hspace : ∀ p ∈ spaced, ∀ c ∈ p.2, isSpace c = true) (hinner : ∀ p ∈ spaced.dropLast, p.2 ≠ [])
    (offset : Nat) : (Cursor.stream ⟨offset, spacedChars spaced⟩).unplaced =
      ⟨spaced.map fun p => p.1.move fun _ => 0, .finished 0⟩ := by
  induction spaced generalizing offset with
  | nil =>
    rw [Cursor.stream_eq]
    rfl
  | cons p spaced ih =>
    obtain ⟨t, gap⟩ := p
    obtain ⟨ht, hsolid⟩ := List.forall_mem_cons.mp hsolid
    obtain ⟨hgap, hspace⟩ := List.forall_mem_cons.mp hspace
    -- only behind the last token may nothing stand
    have hrest : ∀ c ∈ (gap ++ spacedChars spaced).head?, isSpace c = true := by
      cases gap with
      | cons x xs =>
        rintro c ⟨⟩
        exact hgap x List.mem_cons_self
      | nil =>
        cases spaced with
        | nil => exact nofun
        | cons q spaced => exact absurd rfl (hinner (t, []) List.mem_cons_self)
    have hlater : ∀ q ∈ spaced.dropLast, q.2 ≠ [] := by
      intro q hq
      refine hinner q ?_
      cases spaced with
      | nil => cases hq
      | cons r spaced => exact List.mem_cons_of_mem _ hq
    obtain ⟨span, stop, hstream⟩ := Cursor.exists_stream_solid offset ht hrest
    obtain ⟨stop', hskip⟩ := Cursor.exists_stream_space stop hgap (spacedChars spaced)
    have hih := ih hsolid hspace hlater stop'
    simp only [TokenStream.unplaced, TokenStream.move, TokenStream.mk.injEq] at hih ⊢
    rw [spacedChars, List.flatMap_cons, List.append_assoc, ← spacedChars, hstream, hskip]
    exact ⟨congrArg₂ List.cons rfl hih.1, hih.2⟩

/-- A stream that is complete without its places is complete, with tokens of the same kinds and
texts. -/
private theorem exists_finished_of_unplaced {s : TokenStream} {ts : List Token} {stop : Nat}
    (h : s.unplaced = TokenStream.unplaced ⟨ts, .finished stop⟩) :
    ∃ tokens stop', s = ⟨tokens, .finished stop'⟩ ∧
      tokens.map (fun t => (t.kind, t.text)) = ts.map fun t => (t.kind, t.text) := by
  obtain ⟨tokens, ending⟩ := s
  simp only [TokenStream.unplaced, TokenStream.move, TokenStream.mk.injEq] at h
  obtain ⟨htokens, hending⟩ := h
  cases ending with
  | fault e => cases hending
  | finished stop' =>
    refine ⟨tokens, stop', rfl, ?_⟩
    have hmap := congrArg (List.map fun t : Token => (t.kind, t.text)) htokens
    simpa only [List.map_map, Function.comp_def, Token.move] using hmap

/-- Without places two streams read to the same forms or to the same fault. -/
private theorem read_eq_of_unplaced {s s' : TokenStream} (h : s.unplaced = s'.unplaced) :
    s.read.mapError ReadError.fault = s'.read.mapError ReadError.fault := by
  have hread := congrArg (fun s => s.read.mapError ReadError.fault) h
  simp only [TokenStream.unplaced, TokenStream.read_move] at hread
  have hfault (m : Except ReadError (List Expr)) :
      (m.mapError (ReadError.relocate (Span.move fun _ => 0))).mapError ReadError.fault =
        m.mapError ReadError.fault := by
    cases m <;> rfl
  rwa [hfault, hfault] at hread

/-- **Layout between tokens is irrelevant.** The tokens of a text may be written with any white
space of ASCII in front of them, between them and behind them, as long as there is some between two
of them: the new text has tokens of the same kinds and texts in the same order, and it reads to the
same forms or to the same fault. -/
theorem layout_irrelevant (text : String) (stop : Nat) (lead : List Char)
    (spaced : List (Token × List Char))
    (htext : TokenStream.ofText text = ⟨spaced.map Prod.fst, .finished stop⟩)
    (hlead : ∀ c ∈ lead, isSpace c = true)
    (hspace : ∀ p ∈ spaced, ∀ c ∈ p.2, isSpace c = true)
    (hinner : ∀ p ∈ spaced.dropLast, p.2 ≠ []) :
    (∃ tokens stop', TokenStream.ofText (String.ofList (lead ++ spacedChars spaced)) =
        ⟨tokens, .finished stop'⟩ ∧
      tokens.map (fun t => (t.kind, t.text)) = spaced.map fun p => (p.1.kind, p.1.text)) ∧
    (readProgram (String.ofList (lead ++ spacedChars spaced))).mapError ReadError.fault =
      (readProgram text).mapError ReadError.fault := by
  have hsolid : ∀ p ∈ spaced, p.1.Solid := by
    intro p hp
    refine Cursor.solid_of_mem_stream (Cursor.start text.toList) p.1 ?_
    rw [← TokenStream.ofText, htext]
    exact List.mem_map_of_mem hp
  obtain ⟨offset, hskip⟩ := Cursor.exists_stream_space 0 hlead (spacedChars spaced)
  have hnew : TokenStream.ofText (String.ofList (lead ++ spacedChars spaced)) =
      Cursor.stream ⟨offset, spacedChars spaced⟩ := by
    rw [TokenStream.ofText, String.toList_ofList, Cursor.start, hskip]
  have hunplaced := unplaced_spaced spaced hsolid hspace hinner offset
  have hsame : (TokenStream.ofText (String.ofList (lead ++ spacedChars spaced))).unplaced =
      (TokenStream.ofText text).unplaced := by
    rw [hnew, hunplaced, htext, TokenStream.unplaced, TokenStream.move, List.map_map]
    rfl
  constructor
  · rw [htext] at hsame
    obtain ⟨tokens, stop', hstream, hkinds⟩ := exists_finished_of_unplaced hsame
    exact ⟨tokens, stop', hstream, by rw [hkinds, List.map_map]; rfl⟩
  · rw [readProgram_eq_read, readProgram_eq_read]
    exact read_eq_of_unplaced hsame

/-- A list, the character that is a space itself and a string with a space inside, each token on a
line of its own and behind the last one other white space. -/
def spacedLines : List (Token × List Char) :=
  [(⟨.openList, "(", ⟨0, 1⟩⟩, ['\n']),
    (⟨.atom .identifier, "f", ⟨1, 2⟩⟩, ['\n']),
    (⟨.quote, "'", ⟨2, 3⟩⟩, ['\n']),
    (⟨.openList, "(", ⟨3, 4⟩⟩, ['\n']),
    (⟨.closeList, ")", ⟨4, 5⟩⟩, ['\n']),
    (⟨.closeList, ")", ⟨5, 6⟩⟩, ['\n']),
    (⟨.atom .character, "#\\ ", ⟨6, 9⟩⟩, ['\n']),
    (⟨.atom .string, "\"a b\"", ⟨9, 14⟩⟩, ['\x0c', '\r', '\t', ' '])]

theorem layout_irrelevant_lines :
    TokenStream.ofText "(f'())#\\ \"a b\";(" = ⟨spacedLines.map Prod.fst, .finished 16⟩ ∧
    (∃ tokens stop, TokenStream.ofText (String.ofList (['\n'] ++ spacedChars spacedLines)) =
        ⟨tokens, .finished stop⟩ ∧
      tokens.map (fun t => (t.kind, t.text)) = spacedLines.map fun p => (p.1.kind, p.1.text)) ∧
    (readProgram (String.ofList (['\n'] ++ spacedChars spacedLines))).mapError ReadError.fault =
      (readProgram "(f'())#\\ \"a b\";(").mapError ReadError.fault := by
  have htext : TokenStream.ofText "(f'())#\\ \"a b\";(" =
      ⟨spacedLines.map Prod.fst, .finished 16⟩ := by
    cbv
  have hlead : ∀ c ∈ ['\n'], isSpace c = true := by
    simp [isSpace]
  have hspace : ∀ p ∈ spacedLines, ∀ c ∈ p.2, isSpace c = true := by
    simp [spacedLines, isSpace]
  have hinner : ∀ p ∈ spacedLines.dropLast, p.2 ≠ [] := by
    simp [spacedLines]
  exact ⟨htext, layout_irrelevant _ 16 ['\n'] spacedLines htext hlead hspace hinner⟩

end WordScheme
