import Mathlib
import WordScheme.Proofs.TokenLayout

/-!
# The grammar of data

A datum is an atom, a list or a vector of data, or a quote and a datum. `IsDatum` and `IsData` say
so of kinds of tokens, without any tree. `Datum.tokens` writes a tree down as tokens, delimiters
included, and `Datum.Spanned` says that each datum in it spans from its first token to its last.

The tokens of data are in the grammar (`isData_tokensAll`). In the other direction, tokens in the
grammar are those of some data, provided that delimiters are spelled as their kinds say
(`exists_data`). In a text they are: `Token.Placed.spelled`.
-/

namespace WordScheme

/-! ### Data as tokens -/

namespace Token

/-- The token that opens a list or a vector at an offset. -/
def opening (vector : Bool) (start : Nat) : Token :=
  if vector then ⟨.openVector, "#(", ⟨start, start + 2⟩⟩ else ⟨.openList, "(", ⟨start, start + 1⟩⟩

/-- The closing parenthesis that ends at an offset. -/
def closing (stop : Nat) : Token :=
  ⟨.closeList, ")", ⟨stop - 1, stop⟩⟩

/-- The quote at an offset. -/
def quoteMark (start : Nat) : Token :=
  ⟨.quote, "\x27", ⟨start, start + 1⟩⟩

@[simp]
theorem start_opening (vector : Bool) (start : Nat) :
    (opening vector start).span.start = start := by
  cases vector <;> rfl

end Token

mutual

/-- The tokens of a datum, delimiters included. -/
def Datum.tokens : Datum → List Token
  | .atom kind text span => [⟨.atom kind, text, span⟩]
  | .list items span => .opening false span.start :: (tokensAll items ++ [.closing span.stop])
  | .vector items span => .opening true span.start :: (tokensAll items ++ [.closing span.stop])
  | .quoted datum span => .quoteMark span.start :: datum.tokens

/-- The tokens of several data, one after the other. -/
def tokensAll : List Datum → List Token
  | [] => []
  | d :: ds => d.tokens ++ tokensAll ds

end

mutual

/-- A datum and all data inside of it. -/
def Datum.parts : Datum → List Datum
  | .atom kind text span => [.atom kind text span]
  | .list items span => .list items span :: partsAll items
  | .vector items span => .vector items span :: partsAll items
  | .quoted datum span => .quoted datum span :: datum.parts

@[inherit_doc Datum.parts]
def partsAll : List Datum → List Datum
  | [] => []
  | d :: ds => d.parts ++ partsAll ds

end

/-- The datum, and every datum inside of it, spans from its first token to its last. -/
def Datum.Spanned (d : Datum) : Prop :=
  ∀ e ∈ d.parts, ∃ first ∈ e.tokens.head?, ∃ last ∈ e.tokens.getLast?,
    e.span = first.span.to last.span

theorem tokensAll_eq (ds : List Datum) : tokensAll ds = ds.flatMap Datum.tokens := by
  induction ds with
  | nil => rfl
  | cons d ds ih => rw [tokensAll, ih, List.flatMap_cons]

private theorem forall_partsAll {P : Datum → Prop} {ds : List Datum} :
    (∀ e ∈ partsAll ds, P e) ↔ ∀ d ∈ ds, ∀ e ∈ d.parts, P e := by
  induction ds with
  | nil => simp [partsAll]
  | cons d ds ih => rw [partsAll, List.forall_mem_append, ih, List.forall_mem_cons]

section

variable {d : Datum} {span : Span}

/-- A datum is a part of itself. -/
private theorem self_mem_parts (d : Datum) : d ∈ d.parts := by
  cases d <;> simp [Datum.parts]

/-- A datum has a token. -/
theorem tokens_ne_nil (d : Datum) : d.tokens ≠ [] := by
  cases d <;> simp [Datum.tokens]

/-- The tokens of a sequence are those of its items between parentheses. -/
theorem tokens_sequenceDatum (vector : Bool) (items : List Datum) (span : Span) :
    (sequenceDatum vector items span).tokens =
      .opening vector span.start :: (tokensAll items ++ [.closing span.stop]) := by
  cases vector <;> rfl

theorem getLast?_tokens_sequenceDatum (vector : Bool) (items : List Datum) (span : Span) :
    (sequenceDatum vector items span).tokens.getLast? = some (.closing span.stop) := by
  rw [tokens_sequenceDatum, ← List.cons_append, List.getLast?_concat]

/-- The last token behind a quote is that of the datum. -/
theorem getLast?_cons_tokens (t : Token) (d : Datum) :
    (t :: d.tokens).getLast? = d.tokens.getLast? := by
  obtain ⟨u, us, htokens⟩ := List.exists_cons_of_ne_nil (tokens_ne_nil d)
  rw [htokens, List.getLast?_cons_cons]

theorem spanned_atom (kind : AtomKind) (text : String) (span : Span) :
    (Datum.atom kind text span).Spanned := by
  intro e he
  rw [Datum.parts, List.mem_singleton] at he
  subst he
  exact ⟨_, rfl, _, rfl, rfl⟩

/-- A sequence spans from its first token to its last if its items do. -/
theorem spanned_sequenceDatum (vector : Bool) (items : List Datum) (span : Span) :
    (sequenceDatum vector items span).Spanned ↔ ∀ d ∈ items, d.Spanned := by
  have hparts : (sequenceDatum vector items span).parts =
      sequenceDatum vector items span :: partsAll items := by cases vector <;> rfl
  have hspan : (sequenceDatum vector items span).span = span := by cases vector <;> rfl
  have hself : ∃ first ∈ (sequenceDatum vector items span).tokens.head?,
      ∃ last ∈ (sequenceDatum vector items span).tokens.getLast?,
        (sequenceDatum vector items span).span = first.span.to last.span := by
    rw [getLast?_tokens_sequenceDatum, tokens_sequenceDatum, hspan]
    refine ⟨_, rfl, _, rfl, ?_⟩
    rw [Span.to, Token.start_opening]
    rfl
  rw [Datum.Spanned, hparts, List.forall_mem_cons, forall_partsAll]
  exact and_iff_right hself

/-- A quotation spans to the end of what it quotes. -/
theorem spanned_quoted :
    (Datum.quoted d span).Spanned ↔ d.Spanned ∧ span.stop = d.span.stop := by
  rw [Datum.Spanned, Datum.parts, List.forall_mem_cons, and_comm]
  refine and_congr_right fun hd => ?_
  obtain ⟨first, -, last, hlast, hspan⟩ := hd d (self_mem_parts d)
  rw [Datum.tokens, getLast?_cons_tokens, Datum.span, hspan]
  constructor
  · rintro ⟨mark, -, last', hlast', rfl⟩
    cases Option.mem_unique hlast hlast'
    rfl
  · intro hstop
    refine ⟨_, rfl, last, hlast, ?_⟩
    obtain ⟨start, stop⟩ := span
    cases hstop
    rfl

end

/-! ### The grammar -/

mutual

/-- The kinds of token that one datum is made of. -/
inductive IsDatum : List TokenKind → Prop
  | atom (kind : AtomKind) : IsDatum [.atom kind]
  | list {kinds : List TokenKind} (h : IsData kinds) :
      IsDatum (.openList :: (kinds ++ [.closeList]))
  | vector {kinds : List TokenKind} (h : IsData kinds) :
      IsDatum (.openVector :: (kinds ++ [.closeList]))
  | quoted {kinds : List TokenKind} (h : IsDatum kinds) : IsDatum (.quote :: kinds)

/-- The kinds of token that any number of data are made of, one after the other. -/
inductive IsData : List TokenKind → Prop
  | nil : IsData []
  | cons {kinds later : List TokenKind} (h : IsDatum kinds) (hlater : IsData later) :
      IsData (kinds ++ later)

end

mutual

/-- The tokens of a datum are in the grammar. -/
private theorem isDatum_tokens : (d : Datum) → IsDatum (d.tokens.map Token.kind)
  | .atom kind _ _ => .atom kind
  | .list items _ => by
    rw [Datum.tokens, List.map_cons, List.map_append]
    exact .list (isData_tokensAll items)
  | .vector items _ => by
    rw [Datum.tokens, List.map_cons, List.map_append]
    exact .vector (isData_tokensAll items)
  | .quoted datum _ => .quoted (isDatum_tokens datum)

@[inherit_doc isDatum_tokens]
theorem isData_tokensAll : (ds : List Datum) → IsData ((tokensAll ds).map Token.kind)
  | [] => .nil
  | d :: ds => by
    rw [tokensAll, List.map_append]
    exact .cons (isDatum_tokens d) (isData_tokensAll ds)

end

/-- A delimiter has the text and the length of its kind. -/
inductive Token.Spelled : Token → Prop
  | opening (vector : Bool) (start : Nat) : Spelled (.opening vector start)
  | closing (stop : Nat) : Spelled (.closing stop)
  | quoteMark (start : Nat) : Spelled (.quoteMark start)
  | atom (kind : AtomKind) (text : String) (span : Span) : Spelled ⟨.atom kind, text, span⟩

/-- The characters of a delimiter. -/
def TokenKind.delimiter? : TokenKind → Option (List Char)
  | .openList => some ['(']
  | .openVector => some ['#', '(']
  | .closeList => some [')']
  | .quote => some ['\x27']
  | .atom _ => none

/-- A delimiter is spelled in one way. -/
private theorem scan_delimiter {cs : List Char} {r : Scanned} (h : scan cs = some r) :
    ∀ kind, r.outcome = .ok kind → ∀ text ∈ kind.delimiter?, r.taken = text := by
  revert h
  fun_cases scan cs with
  | case1 =>
    intro h
    cases h
  | case7 cs =>
    rintro ⟨⟩
    fun_cases scanHash cs with
    | case4 cs _ _ _ run rest hrun text =>
      intro kind hkind
      dsimp only at hkind
      split at hkind
      · cases hkind
        simp [TokenKind.delimiter?]
      · cases hkind
    | _ => simp [TokenKind.delimiter?]
  | _ =>
    rintro ⟨⟩
    simp [TokenKind.delimiter?]

/-- A token that stands where its text is, is spelled by its kind. -/
theorem Token.Placed.spelled {s : Source} {t : Token} (h : t.Placed s) : t.Spelled := by
  obtain ⟨cs, rest, ⟨before, after, -, hstart, hstop⟩, htext, hscan⟩ := h
  have htaken := scan_delimiter hscan t.kind rfl
  rw [byteLength_append, ← hstart] at hstop
  obtain ⟨kind, text, start, stop⟩ := t
  dsimp only at htext hstop htaken ⊢
  subst htext
  cases kind with
  | openList =>
    cases htaken _ rfl
    cases hstop
    exact .opening false start
  | openVector =>
    cases htaken _ rfl
    cases hstop
    exact .opening true start
  | closeList =>
    cases htaken _ rfl
    cases hstop
    exact .closing (start + 1)
  | quote =>
    cases htaken _ rfl
    cases hstop
    exact .quoteMark start
  | atom kind => exact .atom kind _ _

namespace Token.Spelled

variable {t : Token}

/-- A spelled token that opens a sequence is determined by its start. -/
theorem eq_opening {vector : Bool} (h : t.Spelled)
    (hkind : t.kind = (Token.opening vector 0).kind) :
    t = .opening vector t.span.start := by
  cases h with
  | opening vector' start =>
    obtain rfl : vector' = vector := by
      cases vector' <;> cases vector <;> simp [Token.opening] at hkind ⊢
    rw [Token.start_opening]
  | _ => cases vector <;> cases hkind

/-- A spelled closing parenthesis is determined by its end. -/
private theorem eq_closing (h : t.Spelled) (hkind : t.kind = .closeList) :
    t = .closing t.span.stop := by
  cases h with
  | opening vector => cases vector <;> cases hkind
  | closing => rfl
  | _ => cases hkind

/-- A spelled quote is determined by its start. -/
private theorem eq_quoteMark (h : t.Spelled) (hkind : t.kind = .quote) :
    t = .quoteMark t.span.start := by
  cases h with
  | opening vector => cases vector <;> cases hkind
  | quoteMark => rfl
  | _ => cases hkind

end Token.Spelled

section

variable {kinds : List TokenKind} {ts : List Token}

/-- Tokens between parentheses are those of a sequence, if those inside are of data. -/
private theorem exists_sequenceDatum (vector : Bool)
    (hts : ts.map Token.kind = (Token.opening vector 0).kind :: (kinds ++ [.closeList]))
    (hspelled : ∀ t ∈ ts, t.Spelled)
    (hitems : ∀ us : List Token, us.map Token.kind = kinds → (∀ t ∈ us, t.Spelled) →
      ∃ ds : List Datum, (∀ d ∈ ds, d.Spanned) ∧ tokensAll ds = us) :
    ∃ d : Datum, d.Spanned ∧ d.tokens = ts := by
  obtain ⟨first, rest, rfl, hfirst, hrest⟩ := List.map_eq_cons_iff.mp hts
  obtain ⟨us, last, rfl, hus, hlast⟩ := List.map_eq_append_iff.mp hrest
  obtain ⟨close, rfl, hclose⟩ := List.map_eq_singleton_iff.mp hlast
  obtain ⟨hopens, hspelled⟩ := List.forall_mem_cons.mp hspelled
  obtain ⟨hspelled, hcloses⟩ := List.forall_mem_append.mp hspelled
  obtain ⟨ds, hds, rfl⟩ := hitems us hus hspelled
  refine ⟨sequenceDatum vector ds (first.span.to close.span),
    (spanned_sequenceDatum vector ds _).mpr hds, ?_⟩
  rw [tokens_sequenceDatum, Span.to]
  dsimp only
  rw [← hopens.eq_opening hfirst, ← (hcloses close List.mem_cons_self).eq_closing hclose]

mutual

/-- **Tokens in the grammar have a tree.** -/
theorem exists_datum {kinds : List TokenKind} : IsDatum kinds → ∀ ts : List Token,
    ts.map Token.kind = kinds → (∀ t ∈ ts, t.Spelled) → ∃ d : Datum, d.Spanned ∧ d.tokens = ts
  | .atom kind, ts, hts, _ => by
    obtain ⟨t, rfl, hkind⟩ := List.map_eq_singleton_iff.mp hts
    refine ⟨.atom kind t.text t.span, spanned_atom _ _ _, ?_⟩
    rw [Datum.tokens, ← hkind]
  | .list h, ts, hts, hspelled => exists_sequenceDatum false hts hspelled (exists_data h)
  | .vector h, ts, hts, hspelled => exists_sequenceDatum true hts hspelled (exists_data h)
  | .quoted h, ts, hts, hspelled => by
    obtain ⟨q, ts, rfl, hq, hts⟩ := List.map_eq_cons_iff.mp hts
    obtain ⟨hmark, hspelled⟩ := List.forall_mem_cons.mp hspelled
    obtain ⟨d, hd, rfl⟩ := exists_datum h ts hts hspelled
    refine ⟨.quoted d (q.span.to d.span), spanned_quoted.mpr ⟨hd, rfl⟩, ?_⟩
    rw [Datum.tokens, Span.to, ← hmark.eq_quoteMark hq]

@[inherit_doc exists_datum]
theorem exists_data {kinds : List TokenKind} : IsData kinds → ∀ ts : List Token,
    ts.map Token.kind = kinds → (∀ t ∈ ts, t.Spelled) →
      ∃ ds : List Datum, (∀ d ∈ ds, d.Spanned) ∧ tokensAll ds = ts
  | .nil, ts, hts, _ => by
    rw [List.map_eq_nil_iff] at hts
    exact ⟨[], by simp, hts.symm⟩
  | .cons h hlater, ts, hts, hspelled => by
    obtain ⟨ts, later, rfl, hts, hlater'⟩ := List.map_eq_append_iff.mp hts
    obtain ⟨hspelled, hspelled'⟩ := List.forall_mem_append.mp hspelled
    obtain ⟨d, hd, rfl⟩ := exists_datum h ts hts hspelled
    obtain ⟨ds, hds, rfl⟩ := exists_data hlater later hlater' hspelled'
    exact ⟨d :: ds, List.forall_mem_cons.mpr ⟨hd, hds⟩, rfl⟩

end

end

end WordScheme
