import Mathlib
import WordScheme.Program
import WordScheme.Proofs.BlamedSpans
import WordScheme.Proofs.TokenSpans

/-!
# Reading is safe

Three things could go wrong in reading besides what is reported: a text could be cut out of the
source at an offset outside of it or inside of a character, a case could arise that is thought
impossible, and an error could be at a span that has no position. `reading_safe` says that none of
them ever does.

The cuts and the impossible cases are made visible by definitions in which they give `none`:
`Source.atomExpr?` tells the meaning of an atom from its span alone, and `operatorExpr?` counts
operands before it takes them. Both agree with the definitions that reading uses. For atoms this
rests on what scanning takes off a text (`scan_shape`): a string has two quotes and no backslash
alone before the second, a character begins with `#\`.

Data and errors stay in the text because of an invariant of the stack of constructs (`Assembling`):
all that it holds is in the text, and it has begun before the tokens that are left. Opening a
construct, completing one and closing one keep it, and `Assembling.assembled` goes through the
stream.
-/

namespace WordScheme

/-! ### What atoms are made of -/

/-- The text of a string between its quotes. It is `none` if a backslash stands last, with nothing
to escape. -/
def unescapeInside? : List Char → Option (Except ReadFault (List Char))
  | [] => some (.ok [])
  | ['\\'] => none
  | '\\' :: 'n' :: cs => (unescapeInside? cs).map (Except.map ('\n' :: ·))
  | '\\' :: 't' :: cs => (unescapeInside? cs).map (Except.map ('\t' :: ·))
  | '\\' :: '\\' :: cs => (unescapeInside? cs).map (Except.map ('\\' :: ·))
  | '\\' :: '\x22' :: cs => (unescapeInside? cs).map (Except.map ('\x22' :: ·))
  | '\\' :: c :: _ => some (.error (.invalidEscape c))
  | c :: cs => (unescapeInside? cs).map (Except.map (c :: ·))

/-- A string that has been scanned ends at its quote, and no backslash stands alone before it. -/
private theorem unescapeInside?_of_stringRun? {cs taken rest : List Char}
    (h : stringRun? cs = some (taken, rest)) :
    ∃ inner, taken = inner ++ ['\x22'] ∧ unescapeInside? inner = some (unescape taken) := by
  fun_induction stringRun? cs generalizing taken rest with
  | case1 => cases h
  | case2 cs =>
    cases h
    exact ⟨[], rfl, rfl⟩
  | case3 c cs ih =>
    obtain ⟨⟨taken, rest⟩, hrun, hr⟩ := Option.map_eq_some_iff.mp h
    cases hr
    obtain ⟨inner, rfl, hinner⟩ := ih hrun
    refine ⟨'\\' :: c :: inner, rfl, ?_⟩
    by_cases hn : c = 'n'
    · simp [hn, unescapeInside?, unescape, hinner]
    by_cases ht : c = 't'
    · simp [ht, unescapeInside?, unescape, hinner]
    by_cases hb : c = '\\'
    · simp [hb, unescapeInside?, unescape, hinner]
    by_cases hq : c = '\x22'
    · simp [hq, unescapeInside?, unescape, hinner]
    simp [unescapeInside?, unescape]
  | case4 c cs hquote hback ih =>
    obtain ⟨⟨taken, rest⟩, hrun, hr⟩ := Option.map_eq_some_iff.mp h
    cases hr
    obtain ⟨inner, rfl, hinner⟩ := ih hrun
    -- a backslash would have taken the next character along
    have hplain : c ≠ '\\' := by
      rintro rfl
      cases cs with
      | nil => cases hrun
      | cons c' cs' => exact hback c' cs' rfl rfl
    refine ⟨c :: inner, rfl, ?_⟩
    simp [unescapeInside?, unescape, hplain, hinner]

/-- What scanning takes off a text: by its outcome, how the text that is taken looks. -/
inductive Scanned.Shape : Scanned → Prop
  | delimiter {kind : TokenKind} (h : ∀ k, kind ≠ .atom k) (taken rest : List Char) :
      Shape ⟨.ok kind, taken, rest⟩
  | string {inner : List Char}
      (h : unescapeInside? inner = some (unescape (inner ++ ['\x22']))) (rest : List Char) :
      Shape ⟨.ok (.atom .string), '\x22' :: (inner ++ ['\x22']), rest⟩
  | character (name rest : List Char) :
      Shape ⟨.ok (.atom .character), '#' :: '\\' :: name, rest⟩
  | plain {kind : AtomKind} (hstring : kind ≠ .string) (hcharacter : kind ≠ .character)
      (taken rest : List Char) : Shape ⟨.ok (.atom kind), taken, rest⟩
  | invalid (taken rest : List Char) :
      Shape ⟨.error (.invalidAtom (String.ofList taken)), taken, rest⟩
  | short {fault : ReadFault} (h : ∀ text, fault ≠ .invalidAtom text) (taken rest : List Char) :
      Shape ⟨.error fault, taken, rest⟩

/-- An atom that is told by its text is neither a string nor a character. -/
theorem classifyAtom_plain (cs : List Char) :
    classifyAtom cs ≠ .string ∧ classifyAtom cs ≠ .character := by
  rw [classifyAtom]
  split_ifs <;> simp

/-- What is scanned behind a hash has the shape of its outcome. -/
private theorem scanHash_shape (cs : List Char) : (scanHash cs).Shape := by
  fun_cases scanHash cs with
  | case1 cs => exact .delimiter (by simp) _ _
  | case2 => exact .short (by simp) _ _
  | case3 c cs run rest hrun => exact .character _ _
  | case4 cs _ _ _ run rest hrun text =>
    split
    · exact .plain (by simp) (by simp) _ _
    · exact .invalid _ _

/-- **What is scanned has the shape of its outcome.** -/
private theorem scan_shape {cs : List Char} {r : Scanned} (h : scan cs = some r) : r.Shape := by
  revert h
  fun_cases scan cs with
  | case1 => exact nofun
  | case2 cs =>
    rintro ⟨⟩
    exact .delimiter (by simp) _ _
  | case3 cs =>
    rintro ⟨⟩
    exact .delimiter (by simp) _ _
  | case4 cs =>
    rintro ⟨⟩
    exact .delimiter (by simp) _ _
  | case5 cs taken rest hrun =>
    rintro ⟨⟩
    obtain ⟨inner, rfl, hinner⟩ := unescapeInside?_of_stringRun? hrun
    exact .string hinner rest
  | case6 cs hrun =>
    rintro ⟨⟩
    exact .short (by simp) _ _
  | case7 cs =>
    rintro ⟨⟩
    exact scanHash_shape cs
  | case8 c cs _ _ _ _ _ run rest hrun =>
    rintro ⟨⟩
    obtain ⟨hstring, hcharacter⟩ := classifyAtom_plain (c :: run)
    exact .plain hstring hcharacter _ _

/-! ### Atoms in the text -/

/-- The meaning of the atom at a span, with its text cut out of the source: without the `#\` of a
character, without the quotes of a string. It is `none` if a cut does not go between two
characters, if a string ends on a backslash, and for a delimiter. -/
def Source.atomExpr? (s : Source) (kind : TokenKind) (span : Span) :
    Option (Except ReadFault Expr) := do
  let text ← s.slice? span
  match kind with
  | .atom .character =>
    let name ← (ofText text).slice? ⟨2, text.utf8ByteSize⟩
    return match characterNamed? name.toList with
      | some value => .ok (.literal (.character value))
      | none => .error (.unknownCharacterName name)
  | .atom .string =>
    let inside ← (ofText text).slice? ⟨1, text.utf8ByteSize - 1⟩
    let value ← unescapeInside? inside.toList
    return value.map fun cs => .literal (.string (String.ofList cs))
  | .atom kind => some (atomExpr kind text)
  | _ => none

private theorem utf8ByteSize_ofList (cs : List Char) :
    (String.ofList cs).utf8ByteSize = byteLength cs := by
  rw [← byteLength_toList, String.toList_ofList]

/-- The text of a character can be cut behind the hash and the backslash. -/
private theorem slice?_character (name : List Char) :
    (Source.ofText (String.ofList ('#' :: '\\' :: name))).slice?
      ⟨2, (String.ofList ('#' :: '\\' :: name)).utf8ByteSize⟩ = some (String.ofList name) := by
  have hholds := Source.holds_ofText ['#', '\\'] name []
  rw [List.append_nil, ← utf8ByteSize_ofList (['#', '\\'] ++ name)] at hholds
  exact hholds.slice?

/-- The text of a string can be cut at its quotes. -/
private theorem slice?_string (inner : List Char) :
    (Source.ofText (String.ofList ('\x22' :: (inner ++ ['\x22'])))).slice?
      ⟨1, (String.ofList ('\x22' :: (inner ++ ['\x22']))).utf8ByteSize - 1⟩ =
        some (String.ofList inner) := by
  have hsize : (String.ofList ('\x22' :: (inner ++ ['\x22']))).utf8ByteSize - 1 =
      byteLength (['\x22'] ++ inner) := by
    rw [utf8ByteSize_ofList, ← List.cons_append, byteLength_append]
    rfl
  rw [hsize]
  exact (Source.holds_ofText ['\x22'] inner ['\x22']).slice?

/-- **The meaning of an atom can be told from its span.** -/
theorem Token.Placed.atomExpr? {s : Source} {t : Token} {kind : AtomKind} (h : t.Placed s)
    (hkind : t.kind = .atom kind) :
    s.atomExpr? t.kind t.span = some (atomExpr kind t.text) := by
  obtain ⟨cs, rest, hholds, htext, hscan⟩ := h
  have hshape := scan_shape hscan
  rw [Source.atomExpr?, hholds.slice?, htext, hkind]
  rw [hkind] at hshape
  cases hshape with
  | delimiter hno => exact absurd rfl (hno kind)
  | string hinner =>
    simp only [Option.bind_eq_bind, Option.bind_some, slice?_string, String.toList_ofList, hinner,
      atomExpr, List.drop_succ_cons, List.drop_zero]
    rfl
  | character name =>
    simp only [Option.bind_eq_bind, Option.bind_some, slice?_character, String.toList_ofList,
      atomExpr, List.drop_succ_cons, List.drop_zero]
    rfl
  | plain hstring hcharacter =>
    cases kind with
    | string => exact absurd rfl hstring
    | character => exact absurd rfl hcharacter
    | _ => rfl

/-! ### Operators -/

/-- An operator on its operands, which are counted first and then taken one by one. It is `none` if
an operand that has been counted is not there. -/
def operatorExpr? (op : BinaryOp) (span : Span) (operands : List Expr) :
    Option (Except ReadError Expr) :=
  if operands.length = 1 ∧ op = .word .subtract then
    some (.ok (.binary op (.integer 0) (operands.headD (.integer 0))))
  else if operands.length = 2 then do
    let lhs ← operands[0]?
    let rhs ← operands[1]?
    return .ok (.binary op lhs rhs)
  else if 2 < operands.length ∧ op.foldable then
    some (.ok (operands.tail.foldl (.binary op) (operands.headD (.integer 0))))
  else some (malformed .operator .operandCount span)

/-- The operands that have been counted are there. -/
private theorem operatorExpr?_eq (op : BinaryOp) (span : Span) (operands : List Expr) :
    operatorExpr? op span operands = some (operatorExpr op span operands) := by
  rcases operands with _ | ⟨lhs, _ | ⟨rhs, _ | ⟨third, rest⟩⟩⟩
  · simp [operatorExpr?, operatorExpr]
  · by_cases hsubtract : op = .word .subtract
    · simp [operatorExpr?, operatorExpr, hsubtract]
    · simp [operatorExpr?, operatorExpr, hsubtract]
  · simp [operatorExpr?, operatorExpr]
  · by_cases hfoldable : op.foldable = true
    · simp [operatorExpr?, operatorExpr, hfoldable]
    · simp [operatorExpr?, operatorExpr, hfoldable]

/-! ### Data in the text -/

mutual

/-- The tokens that the atoms of a datum are. -/
def Datum.atoms : Datum → List Token
  | .atom kind text span => [⟨.atom kind, text, span⟩]
  | .list items _ => atomsAll items
  | .vector items _ => atomsAll items
  | .quoted datum _ => datum.atoms

/-- The tokens that the atoms of several data are. -/
def atomsAll : List Datum → List Token
  | [] => []
  | d :: ds => d.atoms ++ atomsAll ds

end

private theorem forall_atomsAll {P : Token → Prop} {ds : List Datum} :
    (∀ t ∈ atomsAll ds, P t) ↔ ∀ d ∈ ds, ∀ t ∈ d.atoms, P t := by
  induction ds with
  | nil => simp [atomsAll]
  | cons d ds ih => rw [atomsAll, List.forall_mem_append, ih, List.forall_mem_cons]

/-- A datum made of the given tokens, all spans of which are in the text. None of its atoms is a
delimiter. -/
structure Datum.Placed (s : Source) (tokens : List Token) (d : Datum) : Prop where
  spans : ∀ x ∈ d.spans, s.Covers x
  atoms : ∀ t ∈ d.atoms, t ∈ tokens ∧ ∃ kind, t.kind = .atom kind

namespace Datum.Placed

variable {s : Source} {tokens : List Token}

private theorem span {d : Datum} (h : d.Placed s tokens) : s.Covers d.span :=
  h.spans _ (span_mem_spans d)

/-- An atom is placed if its token is. -/
theorem atom {t : Token} {kind : AtomKind} (hmem : t ∈ tokens) (hcovers : s.Covers t.span)
    (hkind : t.kind = .atom kind) : (Datum.atom kind t.text t.span).Placed s tokens := by
  constructor
  · simpa [Datum.spans] using hcovers
  · simpa [Datum.atoms, ← hkind] using ⟨hmem, kind, hkind⟩

/-- A quotation is placed if what it quotes is. -/
private theorem quoted {d : Datum} {span : Span} (h : d.Placed s tokens) (hcovers : s.Covers span) :
    (Datum.quoted d span).Placed s tokens := by
  constructor
  · rw [Datum.spans]
    exact List.forall_mem_cons.mpr ⟨hcovers, h.spans⟩
  · rw [Datum.atoms]
    exact h.atoms

/-- A sequence is placed if its items are. -/
private theorem sequenceDatum {vector : Bool} {items : List Datum} {span : Span}
    (h : ∀ d ∈ items, d.Placed s tokens) (hcovers : s.Covers span) :
    (sequenceDatum vector items span).Placed s tokens := by
  have hspans : ∀ x ∈ span :: spansAll items, s.Covers x :=
    List.forall_mem_cons.mpr ⟨hcovers, forall_spansAll.mpr fun d hd => (h d hd).spans⟩
  have hatoms := forall_atomsAll.mpr fun d hd => (h d hd).atoms
  cases vector with
  | false => exact ⟨hspans, hatoms⟩
  | true => exact ⟨hspans, hatoms⟩

end Datum.Placed

/-- Where a construct begins. -/
def Frame.opening : Frame → Span
  | .sequence _ opening _ => opening
  | .quotation opening => opening

/-- The items of a construct so far. -/
def Frame.items : Frame → List Datum
  | .sequence _ _ items => items
  | .quotation _ => []

/-- Constructs that have begun in front of the tokens that are left, with data made of `all`
tokens in them. -/
structure Assembling (s : Source) (all : List Token) (frames : List Frame) (left : List Token) :
    Prop where
  placed : ∀ t ∈ left, t.Placed s
  subset : left ⊆ all
  ordered : left.Pairwise fun t u => t.span.stop ≤ u.span.start
  opening : ∀ f ∈ frames, s.Covers f.opening
  items : ∀ f ∈ frames, ∀ d ∈ f.items, d.Placed s all
  before : ∀ f ∈ frames, ∀ t ∈ left, f.opening.start ≤ t.span.stop

/-- Data made of the given tokens and an error, all of them in the text. -/
structure Assembled (s : Source) (all : List Token) (result : List Datum × Option ReadError) :
    Prop where
  data : ∀ d ∈ result.1, d.Placed s all
  error : ∀ e, result.2 = some e → s.Covers e.span

/-- A placed datum may come before what is assembled. -/
theorem Assembled.cons {s : Source} {all : List Token} {done : Option Datum}
    {later : List Datum × Option ReadError} (h : Assembled s all later)
    (hdone : ∀ d ∈ done, d.Placed s all) : Assembled s all (done.toList ++ later.1, later.2) where
  data d hd := by
    rcases List.mem_append.mp hd with hd | hd
    · exact hdone d (Option.mem_toList.mp hd)
    · exact h.data d hd
  error := h.error

namespace Assembling

variable {s : Source} {all left : List Token} {frames : List Frame} {t : Token}

private theorem covers (h : Assembling s all frames (t :: left)) : s.Covers t.span := by
  obtain ⟨cs, rest, hholds, -, -⟩ := h.placed t List.mem_cons_self
  exact hholds.covers

private theorem tail (h : Assembling s all frames (t :: left)) : Assembling s all frames left where
  placed := (List.forall_mem_cons.mp h.placed).2
  subset := (List.cons_subset.mp h.subset).2
  ordered := h.ordered.of_cons
  opening := h.opening
  items := h.items
  before f hf u hu := h.before f hf u (List.mem_cons_of_mem t hu)

/-- A token opens a construct. -/
private theorem push (h : Assembling s all frames (t :: left)) {f : Frame}
    (hopening : f.opening = t.span)
    (hitems : f.items = []) : Assembling s all (f :: frames) left := by
  obtain ⟨hplaced, hsubset, hordered, hopenings, hall, hbefore⟩ := h.tail
  refine ⟨hplaced, hsubset, hordered, ?_, ?_, ?_⟩
  · exact List.forall_mem_cons.mpr ⟨hopening ▸ h.covers, hopenings⟩
  · refine List.forall_mem_cons.mpr ⟨?_, hall⟩
    rw [hitems]
    exact fun d hd => nomatch hd
  · refine List.forall_mem_cons.mpr ⟨fun u hu => ?_, hbefore⟩
    obtain ⟨cs, rest, hholds, -, -⟩ := hplaced u hu
    calc
      f.opening.start ≤ t.span.stop := hopening ▸ h.covers.start_le
      _ ≤ u.span.start := (List.pairwise_cons.mp h.ordered).1 u hu
      _ ≤ u.span.stop := hholds.covers.start_le

private theorem pop {f : Frame} (h : Assembling s all (f :: frames) left) :
    Assembling s all frames left where
  placed := h.placed
  subset := h.subset
  ordered := h.ordered
  opening := (List.forall_mem_cons.mp h.opening).2
  items := (List.forall_mem_cons.mp h.items).2
  before := (List.forall_mem_cons.mp h.before).2

/-- A complete datum goes to the innermost construct, or is given back. -/
private theorem complete {d : Datum} (h : Assembling s all frames left) (hd : d.Placed s all)
    (hbefore : ∀ f ∈ frames, f.opening.start ≤ d.span.stop) :
    (∀ e ∈ (place d frames).1, e.Placed s all) ∧ Assembling s all (place d frames).2 left := by
  fun_induction place d frames with
  | case1 d =>
    refine ⟨?_, h⟩
    rintro e ⟨⟩
    exact hd
  | case2 d vector opening items frames =>
    obtain ⟨hitems, hall⟩ := List.forall_mem_cons.mp h.items
    refine ⟨fun e he => (nomatch he), h.placed, h.subset, h.ordered, ?_, ?_, ?_⟩
    · exact List.forall_mem_cons.mpr (List.forall_mem_cons.mp h.opening)
    · exact List.forall_mem_cons.mpr ⟨List.forall_mem_cons.mpr ⟨hd, hitems⟩, hall⟩
    · exact List.forall_mem_cons.mpr (List.forall_mem_cons.mp h.before)
  | case3 d opening frames ih =>
    obtain ⟨hopening, -⟩ := List.forall_mem_cons.mp h.opening
    obtain ⟨hle, hrest⟩ := List.forall_mem_cons.mp hbefore
    exact ih h.pop (hd.quoted (hopening.to hd.span hle)) hrest

/-- A datum that ends with a token comes after every construct that is open. -/
private theorem complete_at {d : Datum} (h : Assembling s all frames (t :: left))
    (hd : d.Placed s all) (hstop : d.span.stop = t.span.stop) :
    (∀ e ∈ (place d frames).1, e.Placed s all) ∧ Assembling s all (place d frames).2 left := by
  refine h.tail.complete hd fun f hf => ?_
  rw [hstop]
  exact h.before f hf t List.mem_cons_self

/-- The error at the end of the tokens is in the text. -/
private theorem endError {ending : Ending} {e : ReadError} (h : Assembling s all frames left)
    (hending : ending.Placed s) (he : endError? frames ending = some e) : s.Covers e.span := by
  rw [endError?.eq_def] at he
  split at he
  · next fault =>
    cases he
    obtain ⟨cs, rest, hholds, -⟩ := hending
    exact hholds.covers
  · next offset =>
    split at he
    · cases he
    · cases he
      exact Source.IsBoundary.covers_at hending
    · next opening frames =>
      cases he
      exact (List.forall_mem_cons.mp h.opening).1

/-- **Assembling stays in the text**, from any state that has stayed in it. -/
theorem assembled {ending : Ending} (h : Assembling s all frames left)
    (hending : ending.Placed s) : Assembled s all (assembleFrom ending frames left) := by
  fun_induction assembleFrom ending frames left with
  | case1 frames => exact ⟨fun d hd => (nomatch hd), fun e he => h.endError hending he⟩
  | case2 frames t ts hkind ih => exact ih (h.push rfl rfl)
  | case3 frames t ts hkind ih => exact ih (h.push rfl rfl)
  | case4 frames t ts hkind ih => exact ih (h.push rfl rfl)
  | case5 frames t ts kind hkind done frames' hplace later error hlater ih =>
    have hatom := Datum.Placed.atom (h.subset List.mem_cons_self) h.covers hkind
    have hcomplete := h.complete_at hatom rfl
    rw [hplace] at hcomplete
    rw [hlater] at ih
    exact (ih hcomplete.2).cons hcomplete.1
  | case6 t ts hkind vector opening items frames d done frames' hplace later error hlater ih =>
    have hopening : s.Covers opening := (List.forall_mem_cons.mp h.opening).1
    have hle : opening.start ≤ t.span.stop :=
      (List.forall_mem_cons.mp h.before).1 t List.mem_cons_self
    have hitems : ∀ d ∈ items.reverse, d.Placed s all := fun d hd =>
      (List.forall_mem_cons.mp h.items).1 d (List.mem_reverse.mp hd)
    have hd : d.Placed s all := .sequenceDatum hitems (hopening.to h.covers hle)
    have hstop : d.span.stop = t.span.stop := by
      cases vector with
      | false => rfl
      | true => rfl
    have hcomplete := h.pop.complete_at hd hstop
    rw [hplace] at hcomplete
    rw [hlater] at ih
    exact (ih hcomplete.2).cons hcomplete.1
  | case7 frames t ts hkind hopen =>
    refine ⟨fun d hd => (nomatch hd), ?_⟩
    rintro e ⟨⟩
    exact h.covers

end Assembling

/-- What is assembled of placed tokens is placed. -/
private theorem TokenStream.Placed.assembled {s : Source} {ts : TokenStream} (h : ts.Placed s) :
    Assembled s ts.tokens ts.assemble := by
  have hstart : Assembling s ts.tokens [] ts.tokens :=
    ⟨h.tokens, List.Subset.refl _, h.ordered, fun f hf => (nomatch hf), fun f hf => (nomatch hf),
      fun f hf => (nomatch hf)⟩
  exact hstart.assembled h.ending

/-! ### Programs -/

/-- The span of an error is in the text. -/
private theorem readProgram_covers {s : Source} {e : ReadError}
    (h : readProgram s.text = .error e) : s.Covers e.span := by
  obtain ⟨hdata, herror⟩ := (TokenStream.placed_ofText s).assembled
  rw [readProgram] at h
  generalize (TokenStream.ofText s.text).assemble = result at hdata herror h
  obtain ⟨data, error⟩ := result
  have hforms : Blames s.Covers (toExprs data) :=
    toExprs_blames data (forall_spansAll.mpr fun d hd => (hdata d hd).spans)
  refine hforms.bind (fun forms => ?_) e h
  cases error with
  | none => exact blames_ok forms
  | some e => exact blames_error (herror e rfl)

/-- Nothing goes wrong in reading a source but what is reported. -/
structure Source.ReadsSafely (s : Source) : Prop where
  /-- The text of every token can be cut out of the source. -/
  tokens : ∀ t ∈ (TokenStream.ofText s.text).tokens, s.slice? t.span = some t.text
  /-- So can that of a fault; it is the text of an invalid atom. -/
  fault : ∀ e, (TokenStream.ofText s.text).ending = .fault e →
    ∃ text, s.slice? e.span = some text ∧ ∀ atom, e.fault = .invalidAtom atom → atom = text
  /-- Every atom, at any depth, is a token of which the meaning can be told from its span. -/
  atoms : ∀ d ∈ (TokenStream.ofText s.text).assemble.1, ∀ t ∈ d.atoms,
    t ∈ (TokenStream.ofText s.text).tokens ∧
      ∃ kind, t.kind = .atom kind ∧ s.atomExpr? t.kind t.span = some (atomExpr kind t.text)
  /-- Operands that have been counted are there. -/
  operators : ∀ op span operands,
    operatorExpr? op span operands = some (operatorExpr op span operands)
  /-- There is a program, or an error at a span that the text covers and that has a position. -/
  outcome : (∃ forms, readProgram s.text = .ok forms) ∨
    ∃ e, readProgram s.text = .error e ∧ s.Covers e.span ∧ (s.position? e.span).isSome = true

/-- **Reading is safe on every source.** No cut goes out of the text or through a character, no case
that is thought impossible arises, and errors are in the text. -/
theorem reading_safe (s : Source) : s.ReadsSafely := by
  have hplaced := TokenStream.placed_ofText s
  have htokens := hplaced.tokens
  obtain ⟨hdata, -⟩ := hplaced.assembled
  refine ⟨fun t ht => ?_, fun e he => ?_, fun d hd t ht => ?_, operatorExpr?_eq, ?_⟩
  · obtain ⟨cs, rest, hholds, htext, -⟩ := htokens t ht
    rw [htext]
    exact hholds.slice?
  · have hending := hplaced.ending
    rw [he] at hending
    obtain ⟨cs, rest, hholds, hscan⟩ := hending
    refine ⟨String.ofList cs, hholds.slice?, fun atom hatom => ?_⟩
    have hshape := scan_shape hscan
    rw [hatom] at hshape
    cases hshape with
    | invalid => rfl
    | short hno => exact absurd rfl (hno atom)
  · obtain ⟨hmem, kind, hkind⟩ := (hdata d hd).atoms t ht
    exact ⟨hmem, kind, hkind, (htokens t hmem).atomExpr? hkind⟩
  · cases hread : readProgram s.text with
    | ok forms => exact .inl ⟨forms, rfl⟩
    | error e =>
      have hcovers := readProgram_covers hread
      exact .inr ⟨e, rfl, hcovers, hcovers.position?⟩

-- characters of two bytes in front of the error and inside of its span
example : readProgram "(λ \"é\\q\")" = .error ⟨.invalidEscape 'q', ⟨4, 10⟩⟩ := by cbv

end WordScheme
