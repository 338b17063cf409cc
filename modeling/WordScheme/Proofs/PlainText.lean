import Mathlib
import WordScheme.Ir.Print

/-!
# Colour leaves the text as it is

A text is clean if stripping leaves it as it is: of the control characters it holds newlines only
(`isClean`). What is asked of a function that colours pieces is that it puts control sequences
around them (`Colours`), and of one that strips text that it drops these sequences and keeps clean
text (`Strips`); `Piece.ansi` and `stripFrom` are such functions. Then stripping takes the sequences
off coloured text, piece by piece, and leaves the pieces, as long as they are clean:
`Styled.strips_painted`. For this it matters that each sequence ends before the text goes on, and
that no piece holds the start of a sequence of its own.

Everything that a module prints is clean, whatever bytes its names and strings are made of, because
names outside the plain ones are quoted and their bytes escaped. Only the name of the module itself
is printed as it stands, so what is asked of it is that it be clean: `Module.strip_shown`.
-/

namespace WordScheme

/-! ### Clean text -/

/-- A text of which stripping leaves every character: it has no control characters but newlines. -/
def isClean (cs : List Char) : Bool :=
  cs.all StripState.ground.prints

/-- Outside a control sequence, a character is printed when it is a line feed or no control
character. -/
private theorem prints_iff {c : Char} : StripState.ground.prints c = true ↔
    c = '\n' ∨ 0x1F < c.toNat ∧ ¬ (0x80 ≤ c.toNat ∧ c.toNat ≤ 0x9F) := by
  have heq : StripState.ground.prints c = (c == '\n' || !(decide (0 ≤ c.toNat) &&
      decide (c.toNat ≤ 0x1F) || decide (0x80 ≤ c.toNat) && decide (c.toNat ≤ 0x9F))) := rfl
  rw [heq, Bool.or_eq_true, beq_iff_eq]
  refine or_congr Iff.rfl ?_
  simp only [Bool.not_eq_true', Bool.or_eq_false_iff, Bool.and_eq_false_iff,
    decide_eq_false_iff_not]
  omega

/-- Printable characters of ASCII stay. -/
private theorem prints_of_le {c : Char} (hlow : 0x20 ≤ c.toNat) (hhigh : c.toNat ≤ 0x7E) :
    StripState.ground.prints c = true :=
  prints_iff.mpr (.inr ⟨by omega, by omega⟩)

/-- Within a control sequence printable characters are dropped, and those from `@` on end it. -/
private theorem control_of_le {c : Char} (hlow : 0x20 ≤ c.toNat) (hhigh : c.toNat ≤ 0x7E) :
    StripState.control.prints c = false ∧
      StripState.control.next c = if 0x40 ≤ c.toNat then .ground else .control := by
  constructor
  · refine beq_eq_false_iff_ne.mpr ?_
    rintro rfl
    exact absurd hlow (by decide)
  · change (if (decide (0 ≤ c.toNat) && decide (c.toNat ≤ 0x1F)) = true then _ else
      if (decide (0x40 ≤ c.toNat) && decide (c.toNat ≤ 0x7E)) = true then _ else _) = _
    rw [if_neg (by simp; omega)]
    simp [hhigh]

/-- A parameter of a control sequence is dropped and leaves the sequence open. -/
private theorem control_of_param {c : Char} (hlow : 0x20 ≤ c.toNat) (hhigh : c.toNat ≤ 0x3F) :
    StripState.control.prints c = false ∧ StripState.control.next c = .control := by
  obtain ⟨hprints, hnext⟩ := control_of_le hlow (by omega)
  exact ⟨hprints, hnext.trans (if_neg (by omega))⟩

/-- The last character of a control sequence is dropped and ends it. -/
private theorem control_of_final {c : Char} (hlow : 0x40 ≤ c.toNat) (hhigh : c.toNat ≤ 0x7E) :
    StripState.control.prints c = false ∧ StripState.control.next c = .ground := by
  obtain ⟨hprints, hnext⟩ := control_of_le (by omega) hhigh
  exact ⟨hprints, hnext.trans (if_pos hlow)⟩

/-- A printed character does not begin a control sequence. -/
private theorem next_of_prints {c : Char} (h : StripState.ground.prints c = true) :
    StripState.ground.next c = .ground := by
  have hne : c ≠ '\x1b' := by
    rintro rfl
    exact absurd h (by decide)
  simp [StripState.next, hne]

@[simp]
theorem isClean_nil : isClean [] = true := rfl

@[simp]
theorem isClean_cons (c : Char) (cs : List Char) :
    isClean (c :: cs) = (StripState.ground.prints c && isClean cs) := rfl

@[simp]
theorem isClean_append (cs ds : List Char) : isClean (cs ++ ds) = (isClean cs && isClean ds) :=
  List.all_append

/-- Printable ASCII text is clean. -/
private theorem isClean_of_le {cs : List Char} (h : ∀ c ∈ cs, 0x20 ≤ c.toNat ∧ c.toNat ≤ 0x7E) :
    isClean cs = true :=
  List.all_eq_true.mpr fun c hc => prints_of_le (h c hc).1 (h c hc).2

/-- What holds of all characters of a separator and of some texts holds of all of them joined. -/
private theorem all_intercalate {p : Char → Bool} {separator : String} {texts : List String}
    (hseparator : separator.toList.all p = true) (h : ∀ t ∈ texts, t.toList.all p = true) :
    (separator.intercalate texts).toList.all p = true := by
  induction texts with
  | nil => rfl
  | cons t texts ih =>
    obtain ⟨ht, htexts⟩ := List.forall_mem_cons.mp h
    cases texts with
    | nil => simpa using ht
    | cons t' texts =>
      have hrest := ih htexts
      rw [String.intercalate_cons_cons, String.toList_append, String.toList_append,
        List.all_append, List.all_append, ht, hseparator, hrest]
      rfl

/-! ### Colouring and stripping in general -/

/-- A control sequence: the escape character, a bracket, parameters, and the character that ends
it. -/
inductive ControlSequence : List Char → Prop
  | mk (params : List Char) (last : Char)
    (hparams : ∀ c ∈ params, 0x20 ≤ c.toNat ∧ c.toNat ≤ 0x3F)
    (hlast : 0x40 ≤ last.toNat ∧ last.toNat ≤ 0x7E) :
    ControlSequence ('\x1b' :: '[' :: (params ++ [last]))

/-- What is asked of a function that strips text. -/
structure Strips (f : List Char → List Char) : Prop where
  nil : f [] = []
  /-- A character that is no control character, or is the newline, stays. -/
  keeps : ∀ c cs, StripState.ground.prints c = true → f (c :: cs) = c :: f cs
  /-- A control sequence goes, up to the character that ends it. -/
  drops : ∀ sequence cs, ControlSequence sequence → f (sequence ++ cs) = f cs

/-- What is asked of a function that colours pieces. -/
structure Colours (paint : Piece → List Char) : Prop where
  /-- A clean piece gets control sequences in front of it and behind it, or none. -/
  wraps : ∀ p, isClean p.text.toList = true → ∃ opening closing : List (List Char),
    (∀ sequence ∈ opening ++ closing, ControlSequence sequence) ∧
      paint p = opening.flatten ++ p.text.toList ++ closing.flatten

section Strips

variable {f : List Char → List Char}

/-- Clean text goes through, and what follows it is stripped as if it stood alone. -/
private theorem Strips.of_isClean (hf : Strips f) {cs : List Char} (h : isClean cs = true)
    (rest : List Char) : f (cs ++ rest) = cs ++ f rest := by
  induction cs with
  | nil => rfl
  | cons c cs ih =>
    obtain ⟨hc, hcs⟩ := Bool.and_eq_true_iff.mp h
    rw [List.cons_append, hf.keeps c _ hc, ih hcs, List.cons_append]

/-- A stripper drops any number of control sequences. -/
private theorem Strips.flatten (hf : Strips f) {sequences : List (List Char)}
    (h : ∀ sequence ∈ sequences, ControlSequence sequence) (rest : List Char) :
    f (sequences.flatten ++ rest) = f rest := by
  induction sequences with
  | nil => rfl
  | cons sequence sequences ih =>
    obtain ⟨hfirst, hothers⟩ := List.forall_mem_cons.mp h
    rw [List.flatten_cons, List.append_assoc, hf.drops sequence _ hfirst, ih hothers]

/-- **Stripping a piece** leaves its text, however it was coloured. -/
theorem Strips.painted (hf : Strips f) {paint : Piece → List Char} (hpaint : Colours paint)
    {p : Piece} (h : isClean p.text.toList = true) (rest : List Char) :
    f (paint p ++ rest) = p.text.toList ++ f rest := by
  obtain ⟨opening, closing, hsequences, hp⟩ := hpaint.wraps p h
  obtain ⟨hopening, hclosing⟩ := List.forall_mem_append.mp hsequences
  rw [hp, List.append_assoc, List.append_assoc, hf.flatten hopening, hf.of_isClean h,
    hf.flatten hclosing]

end Strips

/-! ### The escape sequences in use -/

/-- Parameters are dropped, and the control sequence goes on behind them. -/
private theorem stripFrom_params {params : List Char}
    (h : ∀ c ∈ params, 0x20 ≤ c.toNat ∧ c.toNat ≤ 0x3F) (rest : List Char) :
    stripFrom .control (params ++ rest) = stripFrom .control rest := by
  induction params with
  | nil => rfl
  | cons c params ih =>
    obtain ⟨⟨hlow, hhigh⟩, hparams⟩ := List.forall_mem_cons.mp h
    obtain ⟨hprints, hnext⟩ := control_of_param hlow hhigh
    rw [List.cons_append, stripFrom, hprints, if_neg Bool.false_ne_true, hnext, ih hparams]

/-- The state machine is a stripper. -/
private theorem strips_stripFrom : Strips (stripFrom .ground) where
  nil := rfl
  keeps c cs hc := by rw [stripFrom, if_pos hc, next_of_prints hc]
  drops := by
    rintro _ cs ⟨params, last, hparams, hlow, hhigh⟩
    obtain ⟨hprints, hnext⟩ := control_of_final hlow hhigh
    change stripFrom .control (params ++ [last] ++ cs) = _
    rw [List.append_assoc, stripFrom_params hparams, List.singleton_append, stripFrom, hprints,
      if_neg Bool.false_ne_true, hnext]

/-- Whether a character may stand between the bracket and the end of a control sequence. -/
def isParameter (c : Char) : Bool :=
  decide (0x20 ≤ c.toNat) && decide (c.toNat ≤ 0x3F)

/-- The code of a mark is made of parameter characters. -/
private theorem isParameter_code (m : Mark) : m.code.toList.all isParameter = true := by
  cases m with
  | bold => decide
  | underline => decide
  | colour c => cases c <;> decide

/-- What turns marks on is a control sequence. -/
private theorem controlSequence_markSequence (marks : List Mark) :
    ControlSequence (markSequence marks) := by
  have hcodes : (";".intercalate (marks.map Mark.code)).toList.all isParameter = true := by
    refine all_intercalate (by decide) fun t ht => ?_
    obtain ⟨m, -, rfl⟩ := List.mem_map.mp ht
    exact isParameter_code m
  refine ControlSequence.mk _ 'm' (fun c hc => ?_) (by decide)
  simpa [isParameter] using List.all_eq_true.mp hcodes c hc

/-- What turns the marks off is a control sequence. -/
private theorem controlSequence_reset : ControlSequence Ink.reset :=
  ControlSequence.mk ['0'] 'm' (by simp) (by decide)

/-- Clean text holds no reset, after which the ink would have to be taken up again. -/
private theorem reopen_of_isClean (opening : List Char) {cs : List Char} (h : isClean cs = true) :
    reopen opening cs = cs := by
  induction cs with
  | nil => rfl
  | cons c cs ih =>
    obtain ⟨hc, hcs⟩ := Bool.and_eq_true_iff.mp h
    have hne : c ≠ '\x1b' := by
      rintro rfl
      exact absurd hc (by decide)
    rw [reopen, ih hcs]
    rintro _ rfl
    exact absurd rfl hne

/-- The colouring of pieces only wraps their text in control sequences. -/
private theorem colours_ansi : Colours Piece.ansi where
  wraps p hp := by
    rw [Piece.ansi]
    cases p.ink with
    | none => exact ⟨[], [], by simp, by simp⟩
    | some ink =>
      refine ⟨ink.groups.map markSequence, [Ink.reset], fun sequence hsequence => ?_, ?_⟩
      · rcases List.mem_append.mp hsequence with hopening | hclosing
        · obtain ⟨marks, -, rfl⟩ := List.mem_map.mp hopening
          exact controlSequence_markSequence marks
        · exact List.mem_singleton.mp hclosing ▸ controlSequence_reset
      · simp only [reopen_of_isClean _ hp, Ink.opening, List.flatMap_def, List.flatten_singleton]

/-! ### Styled text -/

namespace Styled

/-- All pieces are clean. -/
def allClean (s : Styled) : Bool :=
  s.all fun p => isClean p.text.toList

variable {s : Styled}

/-- Two texts are clean together when each of them is. -/
private theorem allClean_append (s t : Styled) : (s ++ t).allClean = (s.allClean && t.allClean) :=
  List.all_append

private theorem allClean_raw (text : String) : (raw text).allClean = isClean text.toList :=
  Bool.and_true _

theorem allClean_paint (colour : Colour) (text : String) :
    (colour.paint text).allClean = isClean text.toList :=
  Bool.and_true _

/-- A concatenation of clean texts is clean. -/
private theorem allClean_flatMap {α : Type} {xs : List α} {f : α → Styled}
    (h : ∀ x ∈ xs, (f x).allClean = true) : allClean (xs.flatMap f) = true := by
  rw [allClean, List.all_flatMap]
  exact List.all_eq_true.mpr h

/-- Clean texts joined by a clean separator are clean. -/
private theorem allClean_joinWith {α : Type} {separator : String} {f : α → Styled}
    (hseparator : isClean separator.toList = true) (h : ∀ x, (f x).allClean = true)
    (xs : List α) : (joinWith separator (xs.map f)).allClean = true := by
  induction xs with
  | nil => rfl
  | cons x xs ih =>
    cases xs with
    | nil => exact h x
    | cons x' xs =>
      rw [List.map_cons, List.map_cons, joinWith, ← List.map_cons, allClean_append, allClean_append,
        allClean_raw, h x, hseparator, ih]
      · rfl
      · exact nofun

/-- The characters of a text without its colours. -/
private theorem toList_plain (s : Styled) : s.plain.toList = s.flatMap fun p => p.text.toList := by
  rw [plain, String.toList_join, List.flatMap_map]

/-- **Stripping coloured text leaves the text**, whatever colours it and whatever strips it. -/
theorem strips_painted {paint : Piece → List Char} {f : List Char → List Char}
    (hpaint : Colours paint) (hf : Strips f) (h : s.allClean = true) :
    f (s.flatMap paint) = s.plain.toList := by
  rw [toList_plain]
  induction s with
  | nil => exact hf.nil
  | cons p s ih =>
    obtain ⟨hp, hs⟩ := Bool.and_eq_true_iff.mp h
    rw [List.flatMap_cons, hf.painted hpaint hp, ih hs, List.flatMap_cons]

/-- Text without colours has nothing to lose. -/
private theorem strips_plain {f : List Char → List Char} (hf : Strips f) (h : s.allClean = true) :
    f s.plain.toList = s.plain.toList := by
  have hclean : isClean s.plain.toList = true := by
    rw [toList_plain, isClean, List.all_flatMap]
    exact h
  have hstrip := hf.of_isClean hclean []
  rwa [List.append_nil, hf.nil, List.append_nil] at hstrip

/-- **Stripping the coloured form of a clean text gives its plain form.** -/
theorem strip_ansi (h : s.allClean = true) : strip s.ansi = s.plain := by
  rw [strip, ansi, String.toList_ofList, strips_painted colours_ansi strips_stripFrom h,
    String.ofList_toList]

/-- Stripping leaves the plain form of a clean text as it is. -/
theorem strip_plain (h : s.allClean = true) : strip s.plain = s.plain := by
  rw [strip, strips_plain strips_stripFrom h, String.ofList_toList]

end Styled

/-! ### Numbers and names -/

/-- The decimal numeral of a natural number is clean. -/
private theorem isClean_nat (n : Nat) : isClean (toString n).toList = true := by
  refine isClean_of_le fun c hc => ?_
  rw [Nat.toString_eq_repr, Nat.toList_repr] at hc
  have hdigit := Nat.isDigit_of_mem_toDigits (by decide) (by decide) hc
  rw [Char.isDigit_iff_toNat] at hdigit
  change 48 ≤ c.toNat ∧ c.toNat ≤ 57 at hdigit
  omega

private theorem isClean_int (n : Int) : isClean (toString n).toList = true := by
  have hrepr : toString n = n.repr := rfl
  rw [hrepr, Int.repr_eq_if]
  split
  · exact isClean_nat n.toNat
  · rw [String.toList_append, isClean_append]
    exact Bool.and_eq_true_iff.mpr ⟨by decide, isClean_nat (-n).toNat⟩

/-- A hexadecimal digit is printed. -/
private theorem prints_hexDigit {n : Nat} (h : n < 16) :
    StripState.ground.prints (hexDigit n) = true := by
  interval_cases n <;> decide

/-- A hexadecimal numeral is clean. -/
private theorem isClean_hexDigits (width n : Nat) : isClean (hexDigits width n) = true := by
  induction width generalizing n with
  | zero => rfl
  | succ width ih =>
    rw [hexDigits, isClean_append, ih]
    simp [prints_hexDigit (Nat.mod_lt n (by decide))]

/-- An escaped byte is clean, whatever the byte. -/
private theorem isClean_escapeByte (b : UInt8) : isClean (escapeByte b) = true := by
  rw [escapeByte]
  split
  · next hbare =>
    simp only [isBareByte, Bool.and_eq_true, decide_eq_true_eq, UInt8.le_iff_toNat_le] at hbare
    have hlow : 0x20 ≤ b.toNat := hbare.1.1.1
    have hhigh : b.toNat ≤ 0x7E := hbare.1.1.2
    have hvalid : b.toNat.isValidChar := .inl (by omega)
    have htoNat : (Char.ofNat b.toNat).toNat = b.toNat := by rw [Char.toNat_ofNat, if_pos hvalid]
    rw [isClean_cons, prints_of_le (by omega) (by omega)]
    rfl
  · exact isClean_hexDigits 2 b.toNat

/-- Escaped bytes are clean, whatever the bytes. -/
@[simp]
theorem isClean_escapeBytes (bytes : List UInt8) : isClean (escapeBytes bytes).toList = true := by
  rw [escapeBytes, String.toList_ofList, isClean, List.all_flatMap]
  exact List.all_eq_true.mpr fun b _ => isClean_escapeByte b

/-- Letters and digits are printed. -/
private theorem prints_of_isAlphanum {c : Char} (h : c.isAlphanum = true) :
    StripState.ground.prints c = true := by
  simp only [Char.isAlphanum, Char.isAlpha, Char.isUpper, Char.isLower, Char.isDigit,
    Bool.or_eq_true, Bool.and_eq_true, decide_eq_true_eq, ge_iff_le, UInt32.le_iff_toNat_le] at h
  change (65 ≤ c.toNat ∧ c.toNat ≤ 90 ∨ 97 ≤ c.toNat ∧ c.toNat ≤ 122) ∨
    48 ≤ c.toNat ∧ c.toNat ≤ 57 at h
  exact prints_of_le (by omega) (by omega)

private theorem prints_of_isNamePunctuation {c : Char} (h : isNamePunctuation c = true) :
    StripState.ground.prints c = true := by
  simp only [isNamePunctuation, Bool.or_eq_true, beq_iff_eq] at h
  obtain ((rfl | rfl) | rfl) | rfl := h <;> decide

/-- A bare name is clean. -/
private theorem isClean_of_isBareName {cs : List Char} (h : isBareName cs = true) :
    isClean cs = true := by
  cases cs with
  | nil => cases h
  | cons c cs =>
    obtain ⟨hc, hcs⟩ := Bool.and_eq_true_iff.mp h
    refine Bool.and_eq_true_iff.mpr ⟨?_, List.all_eq_true.mpr fun d hd => ?_⟩
    · rcases Bool.or_eq_true_iff.mp hc with hc | hc
      · exact prints_of_isAlphanum (by rw [Char.isAlphanum, hc, Bool.true_or])
      · exact prints_of_isNamePunctuation hc
    · rcases Bool.or_eq_true_iff.mp (List.all_eq_true.mp hcs d hd) with hd | hd
      · exact prints_of_isAlphanum hd
      · exact prints_of_isNamePunctuation hd

/-- Names are clean as they are printed, whatever they are. -/
@[simp]
theorem isClean_quotedName (name : Name) : isClean (quotedName name).toList = true := by
  rw [quotedName]
  split
  · next hbare => exact isClean_of_isBareName hbare
  · rw [String.toList_append, String.toList_append, isClean_append, isClean_append,
      isClean_escapeBytes]
    decide

/-- A name is clean behind a clean sigil, since what is not bare is escaped. -/
@[simp]
theorem isClean_sigilName (sigil name : Name) :
    isClean (sigilName sigil name).toList = isClean sigil.toList := by
  rw [sigilName, String.toList_append, isClean_append, isClean_quotedName, Bool.and_true]

/-! ### Types and mnemonics -/

private theorem Width.isClean_text (w : Width) : isClean w.text.toList = true := by
  cases w <;> decide

namespace Ty

mutual

/-- The text of a type is clean. -/
private theorem isClean_text : (t : Ty) → isClean t.text.toList = true
  | .int width => by
    rw [text]
    exact width.isClean_text
  | .double => by rw [text]; decide
  | .ptr => by rw [text]; decide
  | .array element length => by
    rw [text]
    simp only [String.toList_append, isClean_append, isClean_nat, isClean_text element]
    decide
  | .named name => by
    rw [text, isClean_sigilName]
    decide
  | .function result params => by
    have hparams : isClean (", ".intercalate (texts params)).toList = true :=
      all_intercalate (by decide) (isClean_texts params)
    rw [text]
    simp only [String.toList_append, isClean_append, isClean_text result, hparams]
    decide
  | .void => by rw [text]; decide

private theorem isClean_texts : (ts : List Ty) → ∀ t ∈ texts ts, isClean t.toList = true
  | [] => fun _ ht => nomatch ht
  | t :: ts => by
    rw [texts]
    exact List.forall_mem_cons.mpr ⟨isClean_text t, isClean_texts ts⟩

end

end Ty

private theorem Opcode.isClean_text (op : Opcode) : isClean op.text.toList = true := by
  cases op <;> decide

private theorem CastOp.isClean_text (op : CastOp) : isClean op.text.toList = true := by
  cases op <;> decide

private theorem IntPredicate.isClean_text (predicate : IntPredicate) :
    isClean predicate.text.toList = true := by
  cases predicate <;> decide

private theorem FloatPredicate.isClean_text (predicate : FloatPredicate) :
    isClean predicate.text.toList = true := by
  cases predicate <;> decide

/-! ### Operands and instructions -/

open Styled

private theorem allClean_registerText (number : Nat) : (registerText number).allClean = true := by
  rw [registerText, allClean_paint, String.toList_append, isClean_append, isClean_nat]
  decide

/-- The text of a global name is clean, whatever the name. -/
private theorem allClean_globalText (name : Name) : (globalText name).allClean = true := by
  rw [globalText, allClean_paint, isClean_sigilName]
  decide

private theorem allClean_paramText (name : Name) : (paramText name).allClean = true := by
  rw [paramText, allClean_paint, isClean_sigilName]
  decide

/-- The text of a label is clean, whatever the label. -/
private theorem allClean_labelText (label : Name) : (labelText label).allClean = true := by
  rw [labelText, allClean_paint, isClean_sigilName]
  decide

private theorem allClean_labelReference (label : Name) :
    (labelReference label).allClean = true := by
  rw [labelReference, allClean_append, allClean_append, allClean_labelText]
  decide

/-- The text of a constant is clean. -/
private theorem Constant.allClean_text (c : Constant) : c.text.allClean = true := by
  rw [text, allClean_paint]
  fun_cases digits c with
  | case1 => decide
  | case2 => decide
  | case3 => exact isClean_int _
  | case4 value =>
    have hhex : isClean value.hex.toList = true := by
      rw [Double.hex, String.toList_ofList, isClean_hexDigits]
    rw [String.toList_append, isClean_append, hhex]
    decide

namespace Operand

private theorem allClean_text (o : Operand) : o.text.allClean = true := by
  cases o with
  | register number ty => exact allClean_registerText number
  | const value => exact value.allClean_text
  | global name ty => exact allClean_globalText name
  | param name ty => exact allClean_paramText name

private theorem allClean_typed (o : Operand) : o.typed.allClean = true := by
  rw [typed, allClean_append, allClean_append, allClean_raw, o.ty.isClean_text,
    o.allClean_text]
  decide

end Operand

private theorem allClean_incomingText (source : Operand × Name) :
    (incomingText source).allClean = true := by
  simp only [incomingText, allClean_append, source.1.allClean_text, allClean_labelText]
  decide

/-- The text of an instruction is clean. -/
private theorem Instruction.allClean_text (i : Instruction) : i.text.allClean = true := by
  cases i with
  | call result callee args =>
    have hargs : (joinWith ", " (args.map Operand.typed)).allClean = true :=
      allClean_joinWith (by decide) Operand.allClean_typed args
    simp only [text, allClean_append, allClean_raw, String.toList_append,
      isClean_append, Ty.isClean_text, Operand.allClean_text, hargs]
    decide
  | phi ty incoming =>
    have hincoming : (joinWith ", " (incoming.map incomingText)).allClean = true :=
      allClean_joinWith (by decide) allClean_incomingText incoming
    simp only [text, allClean_append, allClean_raw, String.toList_append,
      isClean_append, Ty.isClean_text, hincoming]
    decide
  | _ =>
    simp only [text, allClean_append, allClean_raw, allClean_paint, String.toList_append,
      isClean_append, Ty.isClean_text, Operand.allClean_text, Operand.allClean_typed,
      Opcode.isClean_text, CastOp.isClean_text, IntPredicate.isClean_text,
      FloatPredicate.isClean_text]
    decide

private theorem Statement.allClean_text (s : Statement) : s.text.allClean = true := by
  rw [text]
  cases s.dest with
  | none => exact s.instruction.allClean_text
  | some number =>
    simp only [allClean_append, allClean_registerText, s.instruction.allClean_text]
    decide

private theorem Terminator.allClean_text (t : Terminator) : t.text.allClean = true := by
  cases t with
  | unreachable => decide
  | _ =>
    simp only [text, allClean_append, allClean_labelReference, Operand.allClean_typed]
    decide

/-! ### Definitions and modules -/

private theorem allClean_indented {line : Styled} (h : line.allClean = true) :
    (indented line).allClean = true := by
  rw [indented, allClean_append, allClean_append, h]
  decide

theorem Block.allClean_text (b : Block) : b.text.allClean = true := by
  have hstatements : allClean (b.statements.flatMap fun s => indented s.text) = true :=
    allClean_flatMap fun s _ => allClean_indented s.allClean_text
  simp only [text, allClean_append, allClean_paint, String.toList_append,
    isClean_append, isClean_quotedName, hstatements,
    allClean_indented b.terminator.allClean_text]
  decide

theorem Param.allClean_text (p : Param) : p.text.allClean = true := by
  simp only [text, allClean_append, allClean_raw, String.toList_append,
    isClean_append, Ty.isClean_text, allClean_paramText]
  decide

private theorem allClean_declarationText (name : Name) (result : Ty) (params : List Ty) :
    (declarationText name result params).allClean = true := by
  have hparams : isClean (", ".intercalate (params.map Ty.text)).toList = true := by
    refine all_intercalate (by decide) fun t ht => ?_
    obtain ⟨ty, -, rfl⟩ := List.mem_map.mp ht
    exact ty.isClean_text
  simp only [declarationText, allClean_append, allClean_raw, String.toList_append,
    isClean_append, result.isClean_text, allClean_globalText, hparams]
  decide

/-- The text of a function is clean. -/
private theorem Function.allClean_text (f : Function) : f.text.allClean = true := by
  have hparams : (joinWith ", " (f.params.map Param.text)).allClean = true :=
    allClean_joinWith (by decide) Param.allClean_text f.params
  have hblocks : allClean (f.blocks.flatMap Block.text) = true :=
    allClean_flatMap fun b _ => b.allClean_text
  rw [text]
  split
  · exact allClean_declarationText ..
  · simp only [allClean_append, allClean_raw, String.toList_append,
      isClean_append, f.result.isClean_text, allClean_globalText, hparams, hblocks]
    decide

private theorem isClean_initialText (zeroed : Bool) (ty : Ty) :
    isClean (initialText zeroed ty).toList = true := by
  fun_cases initialText zeroed ty <;> decide

/-- The text of a definition is clean. -/
theorem Definition.allClean_text (d : Definition) : d.text.allClean = true := by
  cases d with
  | function f => exact f.allClean_text
  | external name result params => exact allClean_declarationText name result params
  | _ =>
    simp only [text, allClean_append, allClean_raw, allClean_paint, String.toList_append,
      isClean_append, Ty.isClean_text, allClean_globalText, isClean_initialText, isClean_sigilName,
      isClean_escapeBytes]
    decide

namespace Module

/-- What a module prints is clean if its name is. -/
private theorem allClean_text (m : Module) : m.text.allClean = isClean m.name.toList := by
  have hdefinitions : allClean (m.definitions.flatMap fun d => raw "\n" ++ d.text) = true := by
    refine allClean_flatMap fun d _ => ?_
    rw [allClean_append, d.allClean_text]
    decide
  simp only [text, allClean_append, allClean_paint, String.toList_append,
    isClean_append, hdefinitions]
  have hopening : isClean "; ModuleID = '".toList = true := by decide
  have hclosing : isClean "'".toList = true := by decide
  have hnewline : (raw "\n").allClean = true := by decide
  rw [hopening, hclosing, hnewline, Bool.true_and, Bool.and_true, Bool.and_true, Bool.and_true]

/-- **Colour never changes the text** of a module whose name holds no control character but the
newline. Whatever wraps pieces in control sequences and whatever drops these, the text without its
sequences is the plain one, which has none to lose; so it is with the sequences and the stripping
in use, and a module is rendered as its plain text with colours on and off. -/
theorem strip_shown (m : Module) (hname : ∀ c ∈ m.name.toList,
      (c.toNat ≤ 0x1F → c = '\n') ∧ ¬ (0x80 ≤ c.toNat ∧ c.toNat ≤ 0x9F)) :
    (∀ paint f, Colours paint → Strips f → f (m.text.flatMap paint) = m.text.plain.toList ∧
      f m.text.plain.toList = m.text.plain.toList) ∧
    (strip (m.text.shown true) = m.text.shown false ∧
      strip (m.text.shown false) = m.text.shown false) ∧
    ∀ colours, m.render colours = m.text.shown false := by
  have hclean : m.text.allClean = true := by
    rw [allClean_text]
    refine List.all_eq_true.mpr fun c hc => prints_iff.mpr ?_
    obtain ⟨hcontrol, hhigh⟩ := hname c hc
    by_cases hlow : c.toNat ≤ 0x1F
    · exact .inl (hcontrol hlow)
    · exact .inr ⟨by omega, hhigh⟩
  have hcoloured : strip (m.text.shown true) = m.text.shown false := strip_ansi hclean
  have hplain : strip (m.text.shown false) = m.text.shown false := strip_plain hclean
  refine ⟨fun paint f hpaint hf => ?_, ⟨hcoloured, hplain⟩, fun colours => ?_⟩
  · exact ⟨strips_painted hpaint hf hclean, strips_plain hf hclean⟩
  · cases colours with
    | false => exact hplain
    | true => exact hcoloured

/-- A module that spells escape sequences in a name, a parameter, a label and a string. -/
def escaped : Module :=
  ⟨"a\nb",
    [.stringConstant "\x1b[0m" [0x1B, 0x5B, 0x30, 0x6D, 0x0A, 0x22],
      .function ⟨"f", .word, [⟨"\x1b", .word⟩],
        [⟨"\x9b1", [⟨some 1, .phi .word [(.param "\x1b" .word, "\x9b1")]⟩],
          .branch "\x9b1"⟩]⟩]⟩

theorem strip_shown_escaped :
    (escaped.text.shown false = "; ModuleID = 'a\nb'\n" ++
        "\n@\"\\1B[0m\" = private unnamed_addr constant [6 x i8] c\"\\1B[0m\\0A\\22\"\n" ++
        "\ndefine i64 @f(i64 %\"arg.\\1B\") \x7b\n" ++
        "\"\\C2\\9B1\":\n  %r1 = phi i64 [ %\"arg.\\1B\", %\"\\C2\\9B1\" ]\n" ++
        "  br label %\"\\C2\\9B1\"\n\x7d\n") ∧
      stripFrom .ground (escaped.text.flatMap Piece.ansi) = escaped.text.plain.toList ∧
      strip (escaped.text.shown true) = escaped.text.shown false ∧
      strip (escaped.text.shown false) = escaped.text.shown false ∧
      escaped.render true = escaped.text.shown false := by
  have hname : ∀ c ∈ escaped.name.toList,
      (c.toNat ≤ 0x1F → c = '\n') ∧ ¬ (0x80 ≤ c.toNat ∧ c.toNat ≤ 0x9F) := by
    simp [escaped]
  obtain ⟨hgeneral, ⟨hcoloured, hplain⟩, hrender⟩ := strip_shown escaped hname
  exact ⟨by decide +kernel, (hgeneral _ _ colours_ansi strips_stripFrom).1, hcoloured, hplain,
    hrender true⟩

end Module

end WordScheme
