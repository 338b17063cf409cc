import Mathlib
import WordScheme.Token.Scan

/-!
# Where tokens stand

Offsets count bytes, so an offset may fall inside of a character; those that do not are boundaries
(`Source.IsBoundary`). A span that a source covers lies between two boundaries in the right order
(`Source.Covers`), and has a position. A span that holds a text is one from which that text can be
cut (`Source.Holds`).

Every token of a stream stands at a span that holds its text, no two overlap, and they come in
order; where the stream ends, or at the fault that ends it, the text is covered too. This is
`TokenStream.Placed`, and it holds of every stream (`placed_ofText`): a cursor always stands at a
boundary (`Cursor.Within`), and one step moves it from one boundary to another
(`Cursor.Within.next`).
-/

namespace WordScheme

/-! ### Boundaries -/

/-- The bytes of a text are those of its characters. -/
theorem byteLength_toList (text : String) : byteLength text.toList = text.utf8ByteSize := by
  have hlength : ∀ cs : List Char, byteLength cs = String.utf8Len cs := by
    intro cs
    induction cs with
    | nil => rfl
    | cons c cs ih => simp [ih, Nat.add_comm]
  rw [hlength, ← String.utf8ByteSize_ofList, String.ofList_toList]

/-- A text is cut behind its first part by the length of that part. -/
@[simp]
theorem cutAt?_append (before after : List Char) :
    cutAt? (before ++ after) (byteLength before) = some (before, after) := by
  induction before with
  | nil => simp [cutAt?]
  | cons c before ih =>
    have hpos := c.utf8Size_pos
    obtain ⟨n, hn⟩ : ∃ n, byteLength (c :: before) = n + 1 :=
      Nat.exists_eq_succ_of_ne_zero (by rw [byteLength_cons]; omega)
    have hle : c.utf8Size ≤ n + 1 := by
      rw [← hn, byteLength_cons]
      omega
    have hrest : n + 1 - c.utf8Size = byteLength before := by
      rw [← hn, byteLength_cons]
      omega
    rw [hn, List.cons_append, cutAt?, if_pos hle, hrest, ih]
    rfl

namespace Source

variable {s : Source}

/-- An offset between two characters, or at one of the ends. -/
def IsBoundary (s : Source) (offset : Nat) : Prop :=
  ∃ before after, s.chars = before ++ after ∧ byteLength before = offset

/-- A span of the text, with both ends on boundaries. -/
structure Covers (s : Source) (span : Span) : Prop where
  start_le : span.start ≤ span.stop
  stop_le : span.stop ≤ s.text.utf8ByteSize
  start : s.IsBoundary span.start
  stop : s.IsBoundary span.stop

/-- A span from which a text can be cut. -/
def Holds (s : Source) (span : Span) (cs : List Char) : Prop :=
  ∃ before after, s.chars = before ++ cs ++ after ∧ span.start = byteLength before ∧
    span.stop = byteLength (before ++ cs)

theorem byteLength_chars (s : Source) : byteLength s.chars = s.text.utf8ByteSize :=
  byteLength_toList s.text

private theorem IsBoundary.le {offset : Nat} (h : s.IsBoundary offset) :
    offset ≤ s.text.utf8ByteSize := by
  obtain ⟨before, after, hchars, rfl⟩ := h
  rw [← byteLength_chars, hchars, byteLength_append]
  omega

/-- A place between two characters is in the text. -/
theorem IsBoundary.covers_at {offset : Nat} (h : s.IsBoundary offset) :
    s.Covers (.at offset) :=
  ⟨le_refl _, h.le, h, h⟩

/-- From one span to another that does not end before it. -/
theorem Covers.to {a b : Span} (ha : s.Covers a) (hb : s.Covers b) (h : a.start ≤ b.stop) :
    s.Covers (a.to b) :=
  ⟨h, hb.stop_le, ha.start, hb.stop⟩

/-- What stands in front of a boundary. -/
theorem before?_byteLength {before after : List Char} (h : s.chars = before ++ after) :
    s.before? (byteLength before) = some before := by
  have hle : byteLength before ≤ byteLength s.chars := by
    rw [h, byteLength_append]
    omega
  rw [Source.before?, Nat.min_eq_left hle, h, cutAt?_append]
  rfl

/-- A text can be cut between two characters. -/
private theorem IsBoundary.before? {offset : Nat} (h : s.IsBoundary offset) :
    (s.before? offset).isSome = true := by
  obtain ⟨before, after, hchars, rfl⟩ := h
  rw [before?_byteLength hchars]
  rfl

/-- A span that is covered has a position. -/
theorem Covers.position? {span : Span} (h : s.Covers span) :
    (s.position? span).isSome = true := by
  obtain ⟨cs, hcs⟩ := Option.isSome_iff_exists.mp h.start.before?
  simp [Source.position?, row?, column?, hcs]

variable {span : Span} {cs : List Char}

/-- A span that holds characters is in the text. -/
theorem Holds.covers (h : s.Holds span cs) : s.Covers span := by
  obtain ⟨before, after, hchars, hstart, hstop⟩ := h
  have hboundary : s.IsBoundary span.stop := ⟨before ++ cs, after, hchars, hstop.symm⟩
  refine ⟨?_, hboundary.le, ⟨before, cs ++ after, ?_, hstart.symm⟩, hboundary⟩
  · rw [hstart, hstop, byteLength_append]
    omega
  · rw [hchars, List.append_assoc]

/-- What a span holds is what it gives. -/
theorem Holds.slice? (h : s.Holds span cs) : s.slice? span = some (String.ofList cs) := by
  have hle := h.covers.start_le
  obtain ⟨before, after, hchars, hstart, hstop⟩ := h
  have hlength : span.stop - span.start = byteLength cs := by
    rw [hstart, hstop, byteLength_append]
    omega
  rw [Source.slice?, if_pos hle, hlength, hstart, hchars, List.append_assoc, cutAt?_append]
  simp only [Option.bind_eq_bind, Option.bind_some, cutAt?_append]
  rfl

/-- A text holds each of its parts. -/
theorem holds_ofText (before cs after : List Char) :
    (ofText (String.ofList (before ++ cs ++ after))).Holds
      ⟨byteLength before, byteLength (before ++ cs)⟩ cs :=
  ⟨before, after, String.toList_ofList, rfl, rfl⟩

end Source

/-! ### Cursors -/

namespace Cursor

variable {s : Source} {c d : Cursor}

/-- A place in the text of a source. -/
def Within (s : Source) (c : Cursor) : Prop :=
  ∃ before, s.chars = before ++ c.rest ∧ byteLength before = c.offset

theorem within_start (s : Source) : (Cursor.start s.chars).Within s :=
  ⟨[], rfl, rfl⟩

/-- A cursor stands between two characters. -/
private theorem Within.isBoundary (h : c.Within s) : s.IsBoundary c.offset := by
  obtain ⟨before, hchars, hoffset⟩ := h
  exact ⟨before, c.rest, hchars, hoffset⟩

/-- Blanks and comments are skipped within the text, and forwards. -/
theorem within_skipFrom (inComment : Bool) (offset : Nat) (cs : List Char)
    (h : Within s ⟨offset, cs⟩) :
    (skipFrom inComment offset cs).Within s ∧ offset ≤ (skipFrom inComment offset cs).offset := by
  -- over one character
  have hstep : ∀ {offset : Nat} {ch : Char} {cs : List Char}, Within s ⟨offset, ch :: cs⟩ →
      Within s ⟨offset + ch.utf8Size, cs⟩ := by
    rintro offset ch cs ⟨before, hchars, hoffset⟩
    refine ⟨before ++ [ch], ?_, ?_⟩
    · rw [hchars, List.append_assoc]
      rfl
    · rw [byteLength_append, hoffset]
      rfl
  fun_induction skipFrom inComment offset cs with
  | case1 => exact ⟨h, le_refl _⟩
  | case2 offset ch cs ih =>
    obtain ⟨hwithin, hle⟩ := ih (hstep h)
    exact ⟨hwithin, by omega⟩
  | case3 offset inComment ch cs _ _ ih =>
    obtain ⟨hwithin, hle⟩ := ih (hstep h)
    exact ⟨hwithin, by omega⟩
  | case4 offset inComment ch cs _ _ _ ih =>
    obtain ⟨hwithin, hle⟩ := ih (hstep h)
    exact ⟨hwithin, by omega⟩
  | case5 => exact ⟨h, le_refl _⟩

/-- What the next step from a place gives: the end of the text, or a token or fault that takes some
text from there on. -/
inductive Step (s : Source) (c : Cursor) : Option (Except ReadError Token) × Cursor → Prop
  | finished {d : Cursor} (hd : d.Within s) : Step s c (none, d)
  | token {kind : TokenKind} {cs : List Char} {span : Span} {d : Cursor}
      (hscan : scan (cs ++ d.rest) = some ⟨.ok kind, cs, d.rest⟩) (hholds : s.Holds span cs)
      (hstart : c.offset ≤ span.start) (hd : d.Within s) (hstop : span.stop = d.offset) :
      Step s c (some (.ok ⟨kind, String.ofList cs, span⟩), d)
  | fault {fault : ReadFault} {cs : List Char} {span : Span} {d : Cursor}
      (hscan : scan (cs ++ d.rest) = some ⟨.error fault, cs, d.rest⟩) (hholds : s.Holds span cs) :
      Step s c (some (.error ⟨fault, span⟩), d)

/-- **One step of a cursor** takes a text that its span holds. -/
theorem Within.next (h : c.Within s) : c.Step s c.next := by
  obtain ⟨hskip, hle⟩ := within_skipFrom false c.offset c.rest h
  change c.skip.Within s at hskip
  change c.offset ≤ c.skip.offset at hle
  rw [Cursor.next]
  dsimp only
  cases hscan : scan c.skip.rest with
  | none => exact .finished hskip
  | some scanned =>
    obtain ⟨before, hchars, hoffset⟩ := hskip
    have happend := scan_append hscan
    obtain ⟨outcome, cs, rest⟩ := scanned
    dsimp only at happend ⊢
    have hholds : s.Holds ⟨c.skip.offset, c.skip.offset + byteLength cs⟩ cs := by
      refine ⟨before, rest, ?_, hoffset.symm, ?_⟩
      · rw [hchars, ← happend, List.append_assoc]
      · rw [byteLength_append, hoffset]
    have hd : Within s ⟨c.skip.offset + byteLength cs, rest⟩ := by
      refine ⟨before ++ cs, ?_, ?_⟩
      · rw [hchars, ← happend, List.append_assoc]
      · rw [byteLength_append, hoffset]
    rw [← happend] at hscan
    cases outcome with
    | ok kind => exact .token hscan hholds hle hd rfl
    | error fault => exact .fault hscan hholds

end Cursor

/-! ### Streams -/

/-- A token stands where its text is, and is what scanning finds there. -/
def Token.Placed (s : Source) (t : Token) : Prop :=
  ∃ cs rest, s.Holds t.span cs ∧ t.text = String.ofList cs ∧
    scan (cs ++ rest) = some ⟨.ok t.kind, cs, rest⟩

/-- The end of a stream stands at a boundary, and its fault where the text of the fault is. -/
def Ending.Placed (s : Source) : Ending → Prop
  | .finished offset => s.IsBoundary offset
  | .fault e => ∃ cs rest, s.Holds e.span cs ∧ scan (cs ++ rest) = some ⟨.error e.fault, cs, rest⟩

/-- The tokens of a stream stand one after the other in the text. -/
structure TokenStream.Placed (s : Source) (ts : TokenStream) : Prop where
  tokens : ∀ t ∈ ts.tokens, t.Placed s
  ordered : ts.tokens.Pairwise fun t u => t.span.stop ≤ u.span.start
  ending : ts.ending.Placed s

namespace Cursor

variable {s : Source} {c : Cursor}

/-- The tokens of a text are in it, from the cursor on. -/
private theorem placed_stream (h : c.Within s) :
    c.stream.Placed s ∧ ∀ t ∈ c.stream.tokens, c.offset ≤ t.span.start := by
  fun_induction Cursor.stream c with
  | case1 c d hnext =>
    have hstep := h.next
    rw [hnext] at hstep
    cases hstep with
    | finished hd =>
      exact ⟨⟨fun _ ht => (nomatch ht), .nil, hd.isBoundary⟩, fun _ ht => nomatch ht⟩
  | case2 c e d hnext =>
    have hstep := h.next
    rw [hnext] at hstep
    cases hstep with
    | fault hscan hholds =>
      exact ⟨⟨fun _ ht => (nomatch ht), .nil, _, _, hholds, hscan⟩, fun _ ht => nomatch ht⟩
  | case3 c t d hnext later ih =>
    have hstep := h.next
    rw [hnext] at hstep
    cases hstep with
    | token hscan hholds hstart hd hstop =>
      obtain ⟨⟨htokens, hordered, hending⟩, hafter⟩ := ih hd
      have hle := hholds.covers.start_le
      refine ⟨⟨?_, ?_, hending⟩, ?_⟩
      · exact List.forall_mem_cons.mpr ⟨⟨_, _, hholds, rfl, hscan⟩, htokens⟩
      · exact List.pairwise_cons.mpr ⟨fun u hu => hstop ▸ hafter u hu, hordered⟩
      · refine List.forall_mem_cons.mpr ⟨hstart, fun u hu => ?_⟩
        exact (hstart.trans hle).trans (hstop ▸ hafter u hu)

end Cursor

/-- **The tokens of a text stand where their texts are**, one after the other. -/
theorem TokenStream.placed_ofText (s : Source) : (TokenStream.ofText s.text).Placed s :=
  (Cursor.placed_stream (Cursor.within_start s)).1

end WordScheme
