import Mathlib
import WordScheme.Proofs.Concatenation
import WordScheme.Proofs.DatumGrammar

/-!
# Grouping is exact

Assembling takes the tokens of a datum to that datum, whatever is open around it (`consume_tokens`),
so tokens in the grammar are grouped.

In the other direction the constructs that are open are tied to the tokens in front of them
(`Opened`): behind the complete data stand the tokens that have opened a construct, each followed by
the items it has so far. A token that is taken keeps this (`Opened.advance`). It tells which closing
parentheses cannot be taken (`Opened.stray_iff`), and what is unfinished at the end. Both directions
together are `assemble_exact`.
-/

namespace WordScheme

/-! ### From tokens in the grammar to data -/

section

variable {frames frames' : List Frame} {done : List Datum} {ts : List Token}

/-- Tokens are taken one part after the other, unless the first part stops. -/
private theorem consume_append (frames : List Frame) (ts us : List Token) :
    consume frames (ts ++ us) =
      match (consume frames ts).2 with
      | .error e => ((consume frames ts).1, .error e)
      | .ok frames' =>
        ((consume frames ts).1 ++ (consume frames' us).1, (consume frames' us).2) := by
  induction ts generalizing frames with
  | nil => rfl
  | cons t ts ih =>
    rw [List.cons_append, consume, consume]
    cases advance? frames t with
    | none => rfl
    | some r =>
      obtain ⟨done, frames⟩ := r
      dsimp only
      rw [ih]
      cases (consume frames ts).2 with
      | error e => rfl
      | ok frames' => simp only [List.append_assoc]

/-- Tokens that are consumed are so whatever comes behind them. -/
private theorem consume_append_of_ok (h : consume frames ts = (done, .ok frames'))
    (us : List Token) :
    consume frames (ts ++ us) = (done ++ (consume frames' us).1, (consume frames' us).2) := by
  rw [consume_append, h]

/-- Behind an error no token is consumed. -/
private theorem consume_append_of_error {e : ReadError} (h : consume frames ts = (done, .error e))
    (us : List Token) : consume frames (ts ++ us) = (done, .error e) := by
  rw [consume_append, h]

/-- A closing parenthesis hands the construct around it on. -/
private theorem consume_closing (vector : Bool) (opening : Span) (items : List Datum)
    (frames : List Frame) (stop : Nat) :
    consume (.sequence vector opening items :: frames) [.closing stop] =
      ((place (sequenceDatum vector items.reverse ⟨opening.start, stop⟩) frames).1.toList,
        .ok (place (sequenceDatum vector items.reverse ⟨opening.start, stop⟩) frames).2) :=
  Prod.ext (List.append_nil _) rfl

private theorem advance?_opening (vector : Bool) (start : Nat) (frames : List Frame) :
    advance? frames (.opening vector start) =
      some (none, .sequence vector (Token.opening vector start).span [] :: frames) := by
  cases vector <;> rfl

/-- The tokens of a sequence hand it on if those of its items hand these on. -/
private theorem consume_sequenceDatum (vector : Bool) (items : List Datum) (span : Span)
    (hitems : ∀ opening, consume (.sequence vector opening [] :: frames) (tokensAll items) =
      ([], .ok (.sequence vector opening (items.reverse ++ []) :: frames))) :
    consume frames (sequenceDatum vector items span).tokens =
      ((place (sequenceDatum vector items span) frames).1.toList,
        .ok (place (sequenceDatum vector items span) frames).2) := by
  rw [tokens_sequenceDatum, consume, advance?_opening]
  dsimp only
  rw [consume_append_of_ok (hitems _), consume_closing, List.append_nil, List.reverse_reverse,
    Token.start_opening]
  rfl

mutual

/-- **The tokens of a datum hand it to the constructs around it.** -/
theorem consume_tokens : (d : Datum) → d.Spanned → ∀ frames : List Frame,
    consume frames d.tokens = ((place d frames).1.toList, .ok (place d frames).2)
  | .atom kind text span, _, frames => Prod.ext (List.append_nil _) rfl
  | .list items span, h, frames =>
    have hitems := (spanned_sequenceDatum false items span).mp h
    consume_sequenceDatum false items span fun opening =>
      consume_tokensAll items hitems false opening [] frames
  | .vector items span, h, frames =>
    have hitems := (spanned_sequenceDatum true items span).mp h
    consume_sequenceDatum true items span fun opening =>
      consume_tokensAll items hitems true opening [] frames
  | .quoted datum span, h, frames => by
    obtain ⟨hdatum, hstop⟩ := spanned_quoted.mp h
    have hspan : (Token.quoteMark span.start).span.to datum.span = span := by
      rw [Span.to, ← hstop]
      rfl
    have hquoted : place datum (.quotation (Token.quoteMark span.start).span :: frames) =
        place (.quoted datum span) frames := by
      rw [place, hspan]
    rw [← hquoted]
    exact consume_tokens datum hdatum (.quotation (Token.quoteMark span.start).span :: frames)

/-- The tokens of several data hand them to the construct around them. -/
private theorem consume_tokensAll : (ds : List Datum) → (∀ d ∈ ds, d.Spanned) →
    ∀ (vector : Bool) (opening : Span) (items : List Datum) (frames : List Frame),
      consume (.sequence vector opening items :: frames) (tokensAll ds) =
        ([], .ok (.sequence vector opening (ds.reverse ++ items) :: frames))
  | [], _, _, _, _, _ => rfl
  | d :: ds, h, vector, opening, items, frames => by
    obtain ⟨hd, hds⟩ := List.forall_mem_cons.mp h
    rw [tokensAll, consume_append_of_ok (consume_tokens d hd _) (tokensAll ds), place,
      consume_tokensAll ds hds, List.reverse_cons, List.append_assoc]
    rfl

end

/-- Inside of no construct, the tokens of data give these data. -/
private theorem consume_tokensAll_nil {ds : List Datum} (h : ∀ d ∈ ds, d.Spanned) :
    consume [] (tokensAll ds) = (ds, .ok []) := by
  induction ds with
  | nil => rfl
  | cons d ds ih =>
    obtain ⟨hd, hds⟩ := List.forall_mem_cons.mp h
    rw [tokensAll, consume_append_of_ok (consume_tokens d hd []) (tokensAll ds), place, ih hds]
    rfl

end

/-! ### From open constructs to tokens -/

/-- Behind the tokens the given constructs are open, and in front of the outermost one the given
data are complete. -/
inductive Opened : List Token → List Datum → List Frame → Prop
  | data {ds : List Datum} (h : ∀ d ∈ ds, d.Spanned) : Opened (tokensAll ds) ds []
  | sequence {before : List Token} {ds : List Datum} {frames : List Frame}
      (h : Opened before ds frames) (vector : Bool) (start : Nat) (items : List Datum)
      (hitems : ∀ d ∈ items.reverse, d.Spanned) :
      Opened (before ++ .opening vector start :: tokensAll items.reverse) ds
        (.sequence vector (Token.opening vector start).span items :: frames)
  | quotation {before : List Token} {ds : List Datum} {frames : List Frame}
      (h : Opened before ds frames) (start : Nat) :
      Opened (before ++ [.quoteMark start]) ds
        (.quotation (Token.quoteMark start).span :: frames)

private theorem tokensAll_concat (ds : List Datum) (d : Datum) :
    tokensAll (ds ++ [d]) = tokensAll ds ++ d.tokens := by
  rw [tokensAll_eq, tokensAll_eq, List.flatMap_append, List.flatMap_singleton]

namespace Opened

variable {before : List Token} {ds : List Datum} {frames frames' : List Frame} {t : Token}

/-- A complete datum, behind its tokens. -/
theorem place {d : Datum} (h : Opened before ds frames) (hd : d.Spanned) :
    Opened (before ++ d.tokens) (ds ++ (place d frames).1.toList) (place d frames).2 := by
  induction h generalizing d with
  | data hds =>
    rw [← tokensAll_concat]
    refine .data fun e he => ?_
    rcases List.mem_append.mp he with he | he
    · exact hds e he
    · rwa [List.mem_singleton.mp he]
  | @sequence before ds frames h vector start items hitems ih =>
    have htokens : tokensAll (d :: items).reverse = tokensAll items.reverse ++ d.tokens := by
      rw [List.reverse_cons, tokensAll_concat]
    rw [List.append_assoc, List.cons_append, ← htokens]
    change Opened _ (ds ++ []) _
    rw [List.append_nil]
    refine h.sequence vector start _ fun e he => ?_
    rcases List.mem_cons.mp (List.mem_reverse.mp he) with rfl | he
    · exact hd
    · exact hitems e (List.mem_reverse.mpr he)
  | @quotation before ds frames h start ih =>
    -- the quote is complete too, so the quoted datum goes on outwards
    have hquoted : (Datum.quoted d ((Token.quoteMark start).span.to d.span)).Spanned :=
      spanned_quoted.mpr ⟨hd, rfl⟩
    rw [List.append_assoc]
    exact ih hquoted

/-- **One token**: if it is taken, the constructs behind it are open. -/
theorem advance {done : Option Datum} (h : Opened before ds frames) (ht : t.Spelled)
    (hadvance : advance? frames t = some (done, frames')) :
    Opened (before ++ [t]) (ds ++ done.toList) frames' := by
  cases ht with
  | opening vector start =>
    rw [advance?_opening] at hadvance
    cases hadvance
    rw [Option.toList_none, List.append_nil]
    exact h.sequence vector start [] (by simp)
  | quoteMark start =>
    cases hadvance
    rw [Option.toList_none, List.append_nil]
    exact h.quotation start
  | atom kind text span =>
    have hplaced := h.place (spanned_atom kind text span)
    rwa [Option.some.inj hadvance] at hplaced
  | closing stop =>
    cases h with
    | data => cases hadvance
    | quotation => cases hadvance
    | @sequence before _ frames h vector start items hitems =>
      have hdatum := spanned_sequenceDatum vector items.reverse ⟨start, stop⟩
      have hplaced := h.place (hdatum.mpr hitems)
      rw [tokens_sequenceDatum] at hplaced
      have hplace : WordScheme.place (sequenceDatum vector items.reverse ⟨start, stop⟩) frames =
          (done, frames') := by
        rw [← Option.some.inj hadvance, Span.to, Token.start_opening]
        rfl
      rw [hplace] at hplaced
      rwa [List.append_assoc, List.cons_append]

end Opened

/-! ### Parentheses that close nothing -/

/-- The kinds of token that begin a list or a vector. -/
def TokenKind.opens : TokenKind → Bool
  | .openList => true
  | .openVector => true
  | _ => false

/-- How many lists and vectors the tokens begin. -/
def openings (ts : List Token) : Nat :=
  ts.countP fun t => t.kind.opens

/-- How many closing parentheses there are. -/
def closings (ts : List Token) : Nat :=
  ts.countP fun t => t.kind == .closeList

/-- Behind the tokens `before`, a closing parenthesis that closes nothing or directly follows a
quote. -/
def Token.Stray (before : List Token) (t : Token) : Prop :=
  t.kind = .closeList ∧
    (openings before ≤ closings before ∨ ∃ q ∈ before.getLast?, q.kind = .quote)

/-- No closing parenthesis closes nothing or directly follows a quote. -/
def NoStray (ts : List Token) : Prop :=
  ∀ before t after, ts = before ++ t :: after → ¬ t.Stray before

section

variable {before ts us : List Token} {t : Token}

private theorem openings_append (ts us : List Token) :
    openings (ts ++ us) = openings ts + openings us :=
  List.countP_append

private theorem closings_append (ts us : List Token) :
    closings (ts ++ us) = closings ts + closings us :=
  List.countP_append

private theorem openings_opening (vector : Bool) (start : Nat) (ts : List Token) :
    openings (.opening vector start :: ts) = openings ts + 1 := by
  cases vector <;> exact List.countP_cons_of_pos rfl

private theorem closings_opening (vector : Bool) (start : Nat) (ts : List Token) :
    closings (.opening vector start :: ts) = closings ts := by
  cases vector <;> rfl

/-- A sequence closes as many parentheses as it opens, if its items do. -/
private theorem openings_sequenceDatum (vector : Bool) (items : List Datum) (span : Span)
    (h : openings (tokensAll items) = closings (tokensAll items)) :
    openings (sequenceDatum vector items span).tokens =
      closings (sequenceDatum vector items span).tokens := by
  rw [tokens_sequenceDatum, openings_opening, closings_opening, openings_append, closings_append, h]
  rfl

mutual

/-- A datum closes what it opens. -/
private theorem openings_tokens : (d : Datum) → openings d.tokens = closings d.tokens
  | .atom _ _ _ => rfl
  | .list items span => openings_sequenceDatum false items span (openings_tokensAll items)
  | .vector items span => openings_sequenceDatum true items span (openings_tokensAll items)
  | .quoted datum _ => openings_tokens datum

@[inherit_doc openings_tokens]
private theorem openings_tokensAll :
    (ds : List Datum) → openings (tokensAll ds) = closings (tokensAll ds)
  | [] => rfl
  | d :: ds => by
    rw [tokensAll, openings_append, closings_append, openings_tokens d, openings_tokensAll ds]

end

/-- The last token of a datum is no quote. -/
private theorem kind_ne_quote_of_getLast? : (d : Datum) → ∀ q ∈ d.tokens.getLast?, q.kind ≠ .quote
  | .atom _ _ _, q, hq => by
    cases hq
    simp
  | .list items span, q, hq => by
    cases (getLast?_tokens_sequenceDatum false items span).symm.trans hq
    simp [Token.closing]
  | .vector items span, q, hq => by
    cases (getLast?_tokens_sequenceDatum true items span).symm.trans hq
    simp [Token.closing]
  | .quoted datum _, q, hq => by
    rw [Datum.tokens, getLast?_cons_tokens] at hq
    exact kind_ne_quote_of_getLast? datum q hq

/-- Data with no quote in front of them end with no quote. -/
private theorem kind_ne_quote_of_getLast?_append (ts : List Token) (ds : List Datum)
    (h : ∀ q ∈ ts.getLast?, q.kind ≠ .quote) :
    ∀ q ∈ (ts ++ tokensAll ds).getLast?, q.kind ≠ .quote := by
  rcases List.eq_nil_or_concat ds with rfl | ⟨ds, d, rfl⟩
  · rwa [tokensAll, List.append_nil]
  · rw [List.concat_eq_append, tokensAll_concat, ← List.append_assoc,
      List.getLast?_append_of_ne_nil _ (tokens_ne_nil d)]
    exact kind_ne_quote_of_getLast? d

/-- No parenthesis is stray if none was and the next token is not. -/
private theorem NoStray.concat (h : NoStray ts) (ht : ¬ t.Stray ts) : NoStray (ts ++ [t]) := by
  intro before u after hsplit
  rcases List.eq_nil_or_concat after with rfl | ⟨after, last, rfl⟩
  · obtain ⟨rfl, hu⟩ := List.append_inj' hsplit rfl
    cases hu
    exact ht
  · rw [List.concat_eq_append, ← List.cons_append, ← List.append_assoc] at hsplit
    exact h before u after (List.append_inj' hsplit rfl).1

private theorem NoStray.of_append (h : NoStray (ts ++ us)) : NoStray ts := by
  rintro before t after rfl
  exact h before t (after ++ us) (by simp)

end

/-- Lists and vectors, which a parenthesis closes. -/
def Frame.isSequence : Frame → Bool
  | .sequence _ _ _ => true
  | .quotation _ => false

/-- Only a closing parenthesis that closes nothing does not go on. -/
private theorem advance?_eq_none_iff {frames : List Frame} {t : Token} :
    advance? frames t = none ↔
      t.kind = .closeList ∧ ∀ f ∈ frames.head?, f.isSequence = false := by
  obtain ⟨kind, text, span⟩ := t
  cases kind with
  | closeList =>
    rcases frames with _ | ⟨_ | _, frames⟩ <;> simp [advance?, Frame.isSequence]
  | _ => simp [advance?]

namespace Opened

variable {before : List Token} {ds : List Datum} {frames : List Frame} {t : Token}

/-- As many parentheses are open as there are constructs that they close. -/
private theorem openings_eq (h : Opened before ds frames) :
    openings before = closings before + frames.countP Frame.isSequence := by
  induction h with
  | data => exact openings_tokensAll _
  | sequence h vector start items hitems ih =>
    rw [openings_append, closings_append, openings_opening, closings_opening, openings_tokensAll,
      ih, List.countP_cons_of_pos rfl]
    omega
  | quotation h start ih =>
    rw [openings_append, closings_append, ih, List.countP_cons_of_neg (by simp [Frame.isSequence])]
    rfl

/-- A quote stands last if and only if it waits for its datum. -/
private theorem getLast?_quote_iff (h : Opened before ds frames) :
    (∃ q ∈ before.getLast?, q.kind = .quote) ↔
      ∃ opening later, frames = .quotation opening :: later := by
  cases h with
  | data =>
    have hlast := kind_ne_quote_of_getLast?_append [] ds (by simp)
    refine ⟨?_, by simp⟩
    rintro ⟨q, hq, hkind⟩
    exact absurd hkind (hlast q hq)
  | @sequence before _ _ _ vector start items =>
    have hlast := kind_ne_quote_of_getLast?_append (before ++ [.opening vector start])
      items.reverse (by cases vector <;> simp [Token.opening])
    rw [List.append_assoc] at hlast
    refine ⟨?_, by simp⟩
    rintro ⟨q, hq, hkind⟩
    exact absurd hkind (hlast q hq)
  | quotation h start =>
    rw [List.getLast?_concat]
    exact ⟨fun _ => ⟨_, _, rfl⟩, fun _ => ⟨_, rfl, rfl⟩⟩

/-- **The closing parentheses that cannot be taken** are those that close nothing or directly follow
a quote. -/
theorem stray_iff (h : Opened before ds frames) : t.Stray before ↔ advance? frames t = none := by
  rw [advance?_eq_none_iff, Token.Stray, h.openings_eq, h.getLast?_quote_iff]
  refine and_congr_right fun _ => ?_
  rcases frames with _ | ⟨_ | _, frames⟩
  · simp
  · simp [Frame.isSequence]
  · simp [Frame.isSequence]

end Opened

/-! ### Grouping is exact -/

/-- **One run over the tokens**: either they are all taken, and none of their closing parentheses is
stray, or the first that is stray stops it. -/
theorem consume_cases {ts : List Token} (h : ∀ t ∈ ts, t.Spelled) :
    (∃ ds frames, consume [] ts = (ds, .ok frames) ∧ Opened ts ds frames ∧ NoStray ts) ∨
      ∃ ds before t after, ts = before ++ t :: after ∧ NoStray before ∧ t.Stray before ∧
        consume [] ts = (ds, .error ⟨.unexpectedClose, t.span⟩) := by
  -- from the front to the back, since `Opened` speaks of the tokens that have been taken
  induction ts using List.reverseRecOn with
  | nil => exact .inl ⟨[], [], rfl, @Opened.data [] (by simp), by simp [NoStray]⟩
  | append_singleton ts t ih =>
    obtain ⟨hts, ht⟩ := List.forall_mem_append.mp h
    rcases ih hts with ⟨ds, frames, hconsume, hopened, hno⟩ |
      ⟨ds, before, u, after, rfl, hno, hstray, hconsume⟩
    · have hstep := consume_append_of_ok hconsume [t]
      rw [consume] at hstep
      cases hadvance : advance? frames t with
      | none =>
        rw [hadvance] at hstep
        exact .inr ⟨_, ts, t, [], rfl, hno, hopened.stray_iff.mpr hadvance, hstep⟩
      | some r =>
        obtain ⟨done, frames'⟩ := r
        have htaken : ¬ t.Stray ts := by
          rw [hopened.stray_iff, hadvance]
          simp
        rw [hadvance] at hstep
        refine .inl ⟨_, _, hstep, ?_, hno.concat htaken⟩
        have hadvanced := hopened.advance (ht t List.mem_cons_self) hadvance
        rwa [← List.append_nil done.toList] at hadvanced
    · refine .inr ⟨ds, before, u, after ++ [t], by simp, hno, hstray, ?_⟩
      exact consume_append_of_error hconsume [t]

/-- What is wrong with tokens that are not data, where the text ends at the offset. -/
inductive Ungrouped (offset : Nat) : List Token → ReadError → Prop
  /-- The first closing parenthesis that closes nothing or directly follows a quote. -/
  | close {before after : List Token} {t : Token} (hno : NoStray before) (hstray : t.Stray before) :
      Ungrouped offset (before ++ t :: after) ⟨.unexpectedClose, t.span⟩
  /-- Behind the last list that is not closed come only data. -/
  | list {before after : List Token} {t : Token} (hno : NoStray (before ++ t :: after))
      (hkind : t.kind = .openList) (hafter : IsData (after.map Token.kind)) :
      Ungrouped offset (before ++ t :: after) ⟨.unexpectedEnd .list, .at offset⟩
  /-- Behind the last vector that is not closed come only data. -/
  | vector {before after : List Token} {t : Token} (hno : NoStray (before ++ t :: after))
      (hkind : t.kind = .openVector) (hafter : IsData (after.map Token.kind)) :
      Ungrouped offset (before ++ t :: after) ⟨.unexpectedEnd .vector, .at offset⟩
  /-- Behind the quote comes nothing. -/
  | quotation {before : List Token} {t : Token} (hno : NoStray (before ++ [t]))
      (hkind : t.kind = .quote) :
      Ungrouped offset (before ++ [t]) ⟨.unexpectedEnd .quotation, t.span⟩

section

variable {ts : List Token} {offset : Nat}

/-- Tokens without stray parentheses are all taken. -/
private theorem NoStray.exists_opened (h : NoStray ts) (hts : ∀ t ∈ ts, t.Spelled) :
    ∃ ds frames, consume [] ts = (ds, .ok frames) ∧ Opened ts ds frames := by
  rcases consume_cases hts with ⟨ds, frames, hconsume, hopened, -⟩ |
    ⟨ds, before, t, after, rfl, -, hstray, -⟩
  · exact ⟨ds, frames, hconsume, hopened⟩
  · exact absurd hstray (h before t after rfl)

/-- **Tokens are assembled into data exactly when they are those of the data.** -/
private theorem assembleFrom_eq_ok_iff (hts : ∀ t ∈ ts, t.Spelled) (ds : List Datum) :
    assembleFrom (.finished offset) [] ts = (ds, none) ↔
      tokensAll ds = ts ∧ ∀ d ∈ ds, d.Spanned := by
  rw [assembleFrom_eq]
  constructor
  · intro h
    rcases consume_cases hts with ⟨ds', frames, hconsume, hopened, -⟩ |
      ⟨ds', before, t, after, -, -, -, hconsume⟩
    · rw [hconsume] at h
      obtain ⟨rfl, hend⟩ := Prod.mk.inj h
      cases hopened with
      | data hds => exact ⟨rfl, hds⟩
      | _ => cases hend
    · rw [hconsume] at h
      cases h
  · rintro ⟨rfl, hds⟩
    rw [consume_tokensAll_nil hds]
    rfl

/-- Tokens are assembled without an error exactly when they match the grammar. -/
private theorem assembleFrom_isData_iff (hts : ∀ t ∈ ts, t.Spelled) :
    (assembleFrom (.finished offset) [] ts).2 = none ↔ IsData (ts.map Token.kind) := by
  constructor
  · intro h
    obtain ⟨htokens, -⟩ := (assembleFrom_eq_ok_iff hts _).mp (Prod.ext rfl h)
    rw [← htokens]
    exact isData_tokensAll _
  · intro h
    obtain ⟨ds, hds, htokens⟩ := exists_data h ts rfl hts
    rw [(assembleFrom_eq_ok_iff hts ds).mpr ⟨htokens, hds⟩]

/-- The error of tokens is one of those that the grammar names. -/
private theorem ungrouped_of_assembleFrom (hts : ∀ t ∈ ts, t.Spelled) {e : ReadError}
    (h : (assembleFrom (.finished offset) [] ts).2 = some e) : Ungrouped offset ts e := by
  rw [assembleFrom_eq] at h
  rcases consume_cases hts with ⟨ds, frames, hconsume, hopened, hno⟩ |
    ⟨ds, before, t, after, rfl, hno, hstray, hconsume⟩
  · rw [hconsume] at h
    cases hopened with
    | data => cases h
    | sequence _ vector start items =>
      cases vector <;> cases h
      · exact .list hno rfl (isData_tokensAll items.reverse)
      · exact .vector hno rfl (isData_tokensAll items.reverse)
    | quotation =>
      cases h
      exact .quotation hno rfl
  · rw [hconsume] at h
    cases h
    exact .close hno hstray

/-- Behind a list or a vector that is not closed, with data in it, the text ends too early. -/
private theorem assembleFrom_of_opening (vector : Bool) {before after : List Token} {t : Token}
    (hts : ∀ u ∈ before ++ t :: after, u.Spelled) (hno : NoStray (before ++ t :: after))
    (hkind : t.kind = (Token.opening vector 0).kind) (hafter : IsData (after.map Token.kind)) :
    (assembleFrom (.finished offset) [] (before ++ t :: after)).2 =
      some ⟨.unexpectedEnd (if vector then .vector else .list), .at offset⟩ := by
  obtain ⟨hbefore, hspelled⟩ := List.forall_mem_append.mp hts
  obtain ⟨ht, hspelled⟩ := List.forall_mem_cons.mp hspelled
  obtain ⟨ds, frames, hconsume, -⟩ := hno.of_append.exists_opened hbefore
  obtain ⟨items, hitems, rfl⟩ := exists_data hafter after rfl hspelled
  rw [assembleFrom_eq, consume_append_of_ok hconsume, consume, ht.eq_opening hkind,
    advance?_opening]
  dsimp only
  rw [consume_tokensAll items hitems]
  rfl

/-- Tokens with an error that the grammar names are refused with it. -/
private theorem assembleFrom_of_ungrouped (hts : ∀ t ∈ ts, t.Spelled) {e : ReadError}
    (h : Ungrouped offset ts e) : (assembleFrom (.finished offset) [] ts).2 = some e := by
  cases h with
  | @close before after t hno hstray =>
    obtain ⟨hbefore, -⟩ := List.forall_mem_append.mp hts
    obtain ⟨ds, frames, hconsume, hopened⟩ := hno.exists_opened hbefore
    rw [assembleFrom_eq, consume_append_of_ok hconsume, consume, hopened.stray_iff.mp hstray]
  | list hno hkind hafter => exact assembleFrom_of_opening false hts hno hkind hafter
  | vector hno hkind hafter => exact assembleFrom_of_opening true hts hno hkind hafter
  | @quotation before t hno hkind =>
    obtain ⟨hbefore, -⟩ := List.forall_mem_append.mp hts
    obtain ⟨ds, frames, hconsume, -⟩ := hno.of_append.exists_opened hbefore
    obtain ⟨kind, text, span⟩ := t
    cases hkind
    rw [assembleFrom_eq, consume_append_of_ok hconsume]
    rfl

end

/-- **Grouping is exact.** In a text in which every token can be scanned, grouping gives the data of
which the tokens are the tokens of the text, every one spanning from its first token to its last;
there are such data if and only if the tokens are in the grammar, and never two. Otherwise the error
is the first closing parenthesis that closes nothing or directly follows a quote and, if there is
none, the innermost construct that the text leaves unfinished. -/
theorem assemble_exact (text : String) (offset : Nat)
    (h : (TokenStream.ofText text).ending = .finished offset) :
    (∀ ds, (TokenStream.ofText text).assemble = (ds, none) ↔
      ds.flatMap Datum.tokens = (TokenStream.ofText text).tokens ∧ ∀ d ∈ ds, d.Spanned) ∧
    ((TokenStream.ofText text).assemble.2 = none ↔
      IsData ((TokenStream.ofText text).tokens.map Token.kind)) ∧
    ∀ e, (TokenStream.ofText text).assemble.2 = some e ↔
      Ungrouped offset (TokenStream.ofText text).tokens e := by
  have hts : ∀ t ∈ (TokenStream.ofText text).tokens, t.Spelled := fun t ht =>
    ((TokenStream.placed_ofText (.ofText text)).tokens t ht).spelled
  rw [TokenStream.assemble, h]
  refine ⟨fun ds => ?_, assembleFrom_isData_iff hts, fun e => ?_⟩
  · rw [← tokensAll_eq]
    exact assembleFrom_eq_ok_iff hts ds
  · exact ⟨ungrouped_of_assembleFrom hts, assembleFrom_of_ungrouped hts⟩

/-- A vector with a quoted list in it is grouped; if the last item is left out behind its quote, the
parenthesis is to blame, and not the end. -/
theorem assemble_exact_vector :
    (TokenStream.ofText "#(a '(b))").ending = .finished 9 ∧
    (∃ ds, (TokenStream.ofText "#(a '(b))").assemble = (ds, none) ∧
      ds.flatMap Datum.tokens = (TokenStream.ofText "#(a '(b))").tokens ∧ ∀ d ∈ ds, d.Spanned) ∧
    (TokenStream.ofText "#(a ')").ending = .finished 6 ∧
    Ungrouped 6 (TokenStream.ofText "#(a ')").tokens ⟨.unexpectedClose, ⟨5, 6⟩⟩ := by
  have hwhole : (TokenStream.ofText "#(a '(b))").ending = .finished 9 := by cbv
  have hgrouped : (TokenStream.ofText "#(a '(b))").assemble.2 = none := by cbv
  have hcut : (TokenStream.ofText "#(a ')").ending = .finished 6 := by cbv
  have herror : (TokenStream.ofText "#(a ')").assemble.2 = some ⟨.unexpectedClose, ⟨5, 6⟩⟩ := by cbv
  obtain ⟨hdata, -, -⟩ := assemble_exact "#(a '(b))" 9 hwhole
  obtain ⟨-, -, hungrouped⟩ := assemble_exact "#(a ')" 6 hcut
  have hread : (TokenStream.ofText "#(a '(b))").assemble =
      ((TokenStream.ofText "#(a '(b))").assemble.1, none) := Prod.ext rfl hgrouped
  exact ⟨hwhole, ⟨_, hread, (hdata _).mp hread⟩, hcut, (hungrouped _).mp herror⟩

end WordScheme
