import Mathlib
import WordScheme.Expr.OfDatum
import WordScheme.Proofs.CanonicalText

/-!
# The spellings of atoms

Every literal but a double has a canonical text: an integer its decimal digits, a character itself
behind `#\`, a string its characters with a backslash before each backslash and quote. It is taken
as it stands (`Literal.spelled_canonical`) and means the literal again (`Literal.toExpr_canonical`).
A text is an identifier if it is read as one token of that kind (`IsIdentifier`); the keywords and
operators are.
-/

namespace WordScheme

/-! ### Runs of an atom -/

/-- The run of an atom stops where text that ends it begins. -/
theorem atomRun_append_of_ends (cs : List Char) {rest : List Char}
    (hcs : ∀ c ∈ cs, isDelimiter c = false) (hrest : Ends rest) :
    atomRun (cs ++ rest) = (cs, rest) := by
  have htrue : ∀ c ∈ cs, (!isDelimiter c) = true := fun c hc => by rw [hcs c hc]; rfl
  have hstop : rest.takeWhile (fun c => !isDelimiter c) = [] ∧
      rest.dropWhile (fun c => !isDelimiter c) = rest := by
    cases rest with
    | nil => exact ⟨rfl, rfl⟩
    | cons c rest => simp [hrest c rest rfl]
  rw [atomRun, List.takeWhile_append_of_pos htrue, List.dropWhile_append_of_pos htrue, hstop.1,
    hstop.2, List.append_nil]

/-- The run of an atom holds no delimiter. -/
theorem notDelimiter_of_mem_atomRun {cs : List Char} {c : Char} (h : c ∈ (atomRun cs).1) :
    isDelimiter c = false := by
  simpa using List.mem_takeWhile_imp h

/-- The characters with which a token of another kind begins. -/
def marks : List Char :=
  ['(', ')', '\x27', '\x22', '#']

/-- A character that is no mark begins an atom, which is classified by its text. -/
theorem scan_of_notMem_marks {c : Char} (h : c ∉ marks) (cs : List Char) :
    scan (c :: cs) = some ⟨.ok (.atom (classifyAtom (c :: (atomRun cs).1))), c :: (atomRun cs).1,
      (atomRun cs).2⟩ := by
  simp only [marks, List.mem_cons, List.not_mem_nil, or_false, not_or] at h
  obtain ⟨h₁, h₂, h₃, h₄, h₅⟩ := h
  rw [scan]
  all_goals assumption

/-- Whether an atom without a hash starts here and fills the text. -/
def isPlainAtom : List Char → Bool
  | [] => false
  | c :: cs => !isBlank c && c != ';' && !marks.contains c && cs.all fun x => !isDelimiter x

/-- A plain atom is a spelling of its class. -/
private theorem spelling_of_isPlainAtom {cs : List Char} (h : isPlainAtom cs = true) :
    Spelling (classifyAtom cs) cs := by
  cases cs with
  | nil => cases h
  | cons c cs =>
    simp only [isPlainAtom, Bool.and_eq_true, Bool.not_eq_true', bne_iff_ne, List.all_eq_true,
      List.contains_eq_mem, decide_eq_false_iff_not] at h
    obtain ⟨⟨⟨hblank, hcomment⟩, hmarks⟩, hcs⟩ := h
    refine ⟨⟨c, cs, rfl, hblank, hcomment⟩, fun rest hrest => ?_⟩
    rw [List.cons_append, scan_of_notMem_marks hmarks, atomRun_append_of_ends cs hcs hrest]

/-! ### Identifiers -/

/-- A text that is read as one identifier. -/
def IsIdentifier (name : Name) : Prop :=
  ∃ span stop, TokenStream.ofText name = ⟨[⟨.atom .identifier, name, span⟩], .finished stop⟩

/-- No token that begins with a hash is an identifier. -/
private theorem scanHash_ne_identifier (cs : List Char) :
    (scanHash cs).outcome ≠ .ok (.atom .identifier) := by
  unfold scanHash
  split
  case h_4 =>
    simp only
    split_ifs <;> exact nofun
  all_goals exact nofun

/-- An identifier does not begin with a mark. -/
private theorem notMem_marks_of_scan {c : Char} {cs taken rest : List Char}
    (h : scan (c :: cs) = some ⟨.ok (.atom .identifier), taken, rest⟩) : c ∉ marks := by
  have houtcome : ∀ r, scan (c :: cs) = some r → r.outcome = .ok (.atom .identifier) := by
    rintro r hr
    rw [h] at hr
    cases hr
    rfl
  simp only [marks, List.mem_cons, List.not_mem_nil, or_false, not_or]
  refine ⟨?_, ?_, ?_, ?_, ?_⟩ <;> rintro rfl
  · exact nomatch houtcome _ rfl
  · exact nomatch houtcome _ rfl
  · exact nomatch houtcome _ rfl
  · rw [scan] at houtcome
    split at houtcome <;> exact nomatch houtcome _ rfl
  · exact scanHash_ne_identifier cs (houtcome _ rfl)

/-- Blanks and comments end at a character that belongs to neither. -/
theorem notBlank_of_skipFrom {inComment : Bool} {offset : Nat} {cs tail : List Char} {c : Char}
    (h : (Cursor.skipFrom inComment offset cs).rest = c :: tail) :
    isBlank c = false ∧ c ≠ ';' := by
  fun_induction Cursor.skipFrom inComment offset cs with
  | case1 => cases h
  | case2 offset x cs ih => exact ih h
  | case3 inComment offset x cs hin hblank ih => exact ih h
  | case4 inComment offset x cs hin hblank hcomment ih => exact ih h
  | case5 inComment offset x cs hin hblank hcomment =>
    cases h
    exact ⟨by simpa using hblank, by simpa using hcomment⟩

/-- The text of a token is scanned where nothing is left to skip. -/
theorem exists_scan_of_next {c d : Cursor} {t : Token} (h : c.next = (some (.ok t), d)) :
    ∃ rest, scan c.skip.rest = some ⟨.ok t.kind, t.text.toList, rest⟩ := by
  rw [Cursor.next] at h
  cases hscan : scan c.skip.rest with
  | none => simp [hscan] at h
  | some r =>
    obtain ⟨outcome, taken, rest⟩ := r
    cases outcome with
    | error e => simp [hscan] at h
    | ok kind =>
      simp only [hscan, Prod.mk.injEq, Option.some.injEq, Except.ok.injEq] at h
      rw [← h.1, String.toList_ofList]
      exact ⟨rest, rfl⟩

/-- An identifier is a plain atom whose class is `identifier`. -/
private theorem IsIdentifier.isPlainAtom {name : Name} (h : IsIdentifier name) :
    isPlainAtom name.toList = true ∧ classifyAtom name.toList = .identifier := by
  obtain ⟨span, stop, hstream⟩ := h
  have hnext : ∃ d, (Cursor.start name.toList).next =
      (some (.ok ⟨.atom .identifier, name, span⟩), d) := by
    rw [TokenStream.ofText, Cursor.stream_eq] at hstream
    split at hstream <;> simp_all
  obtain ⟨d, hnext⟩ := hnext
  obtain ⟨rest, hscan⟩ := exists_scan_of_next hnext
  -- the token is as long as the text, so nothing stands in front of it or behind it
  have happend := scan_append hscan
  have hle : (Cursor.start name.toList).skip.rest.length ≤ name.toList.length :=
    Cursor.length_skipFrom_le ..
  have hrest : rest = [] := by
    rw [← happend, List.length_append] at hle
    exact List.length_eq_zero_iff.mp (by simpa using hle)
  rw [hrest, List.append_nil] at happend
  rw [← happend, hrest] at hscan
  cases hname : name.toList with
  | nil =>
    rw [hname] at hscan
    cases hscan
  | cons c cs =>
    rw [Cursor.start, hname] at happend
    rw [hname] at hscan
    have hmarks := notMem_marks_of_scan hscan
    obtain ⟨hblank, hcomment⟩ := notBlank_of_skipFrom happend.symm
    rw [scan_of_notMem_marks hmarks] at hscan
    simp only [Option.some.injEq, Scanned.mk.injEq, Except.ok.injEq, TokenKind.atom.injEq,
      List.cons.injEq, true_and] at hscan
    obtain ⟨hkind, hrun, -⟩ := hscan
    rw [hrun] at hkind
    have hcs : ∀ x ∈ cs, isDelimiter x = false := by
      rw [← hrun]
      exact fun x hx => notDelimiter_of_mem_atomRun hx
    refine ⟨?_, hkind⟩
    simpa [WordScheme.isPlainAtom, hblank, hcomment, hmarks] using hcs

/-- An identifier is read back from its own text. -/
theorem IsIdentifier.spelling {name : Name} (h : IsIdentifier name) :
    Spelling .identifier name.toList :=
  h.isPlainAtom.2 ▸ spelling_of_isPlainAtom h.isPlainAtom.1

/-- The identifiers are the plain atoms of their class. -/
private theorem isIdentifier_iff {name : Name} : IsIdentifier name ↔
    isPlainAtom name.toList = true ∧ classifyAtom name.toList = .identifier := by
  refine ⟨IsIdentifier.isPlainAtom, fun ⟨hplain, hkind⟩ => ?_⟩
  have hspelling := spelling_of_isPlainAtom hplain
  obtain ⟨c, cs, hname, hblank, hcomment⟩ := hspelling.starts
  have hscan := hspelling.scan [] nofun
  rw [hkind, List.append_nil, hname] at hscan
  obtain ⟨span, stop, hnext⟩ := Cursor.next_of_scan 0 hblank hcomment hscan
  rw [← hname, String.ofList_toList] at hnext
  refine ⟨span, stop, ?_⟩
  have hend : Cursor.stream ⟨stop, []⟩ = ⟨[], .finished stop⟩ := by
    rw [Cursor.stream_eq]
    rfl
  rw [TokenStream.ofText, Cursor.start, Cursor.stream_eq, hnext]
  simp only [hend]

instance (name : Name) : Decidable (IsIdentifier name) :=
  decidable_of_iff _ isIdentifier_iff.symm

/-- Every keyword is spelled as an identifier. -/
theorem spelling_keyword (k : Keyword) : Spelling .identifier k.text.toList := by
  have hplain : isPlainAtom k.text.toList = true := by cases k <;> decide
  have hkind : classifyAtom k.text.toList = .identifier := by cases k <;> decide
  exact hkind ▸ spelling_of_isPlainAtom hplain

theorem spelling_else : Spelling .identifier "else".toList := by
  have hkind : classifyAtom "else".toList = .identifier := by decide
  exact hkind ▸ spelling_of_isPlainAtom (by decide)

theorem spelling_binary (op : BinaryOp) : Spelling .identifier op.text.toList := by
  have hplain : isPlainAtom op.text.toList = true := by
    rcases op with (_ | _) | (_ | _) | (_ | _) | (_ | _) <;> decide
  have hkind : classifyAtom op.text.toList = .identifier := by
    rcases op with (_ | _) | (_ | _) | (_ | _) | (_ | _) <;> decide
  exact hkind ▸ spelling_of_isPlainAtom hplain

theorem spelling_primitive (p : Primitive) : Spelling .identifier p.text.toList := by
  have hplain : isPlainAtom p.text.toList = true := by
    rcases p with (_ | _) | _ | _ <;> decide
  have hkind : classifyAtom p.text.toList = .identifier := by
    rcases p with (_ | _) | _ | _ <;> decide
  exact hkind ▸ spelling_of_isPlainAtom hplain

/-! ### Integers -/

/-- The decimal digits of an integer, behind a minus sign if it is negative. -/
def decimalChars (n : Int) : List Char :=
  if n < 0 then '-' :: Nat.toDigits 10 n.natAbs else Nat.toDigits 10 n.natAbs

/-- A digit is no sign and begins an atom. -/
theorem plain_of_isDigit {c : Char} (h : c.isDigit = true) :
    isDelimiter c = false ∧ isBlank c = false ∧ c ≠ ';' ∧ c ∉ marks ∧ c ≠ '-' ∧ c ≠ '+' := by
  have hrange : 48 ≤ c.toNat ∧ c.toNat ≤ 57 := by
    simpa [Char.isDigit, UInt32.le_iff_toNat_le] using h
  have hne : ∀ x : Char, x.toNat < 48 ∨ 57 < x.toNat → c ≠ x := by
    rintro x hx rfl
    omega
  have hblank : isBlank c = false := by
    simp only [isBlank, blankRanges, List.any_eq_false, List.mem_cons, List.not_mem_nil]
    rintro r hr
    grind
  refine ⟨?_, hblank, hne _ (by decide), ?_, hne _ (by decide), hne _ (by decide)⟩
  · simp [isDelimiter, hne]
  · simp [marks, hne]

private theorem isDigit_toDigits (n : Nat) : ∀ c ∈ Nat.toDigits 10 n, c.isDigit = true :=
  fun _ hc => Nat.isDigit_of_mem_toDigits (by decide) (by decide) hc

/-- No sign is split off a numeral without one. -/
private theorem splitSign_toDigits (n : Nat) :
    Numeral.splitSign (Nat.toDigits 10 n) = (false, Nat.toDigits 10 n) := by
  have hdigits := isDigit_toDigits n
  cases hcs : Nat.toDigits 10 n with
  | nil => rfl
  | cons c cs =>
    rw [hcs] at hdigits
    obtain ⟨-, -, -, -, hminus, hplus⟩ := plain_of_isDigit (hdigits c List.mem_cons_self)
    simp [Numeral.splitSign, hminus, hplus]

/-- A decimal numeral is split into its sign and the digits of its absolute value. -/
private theorem splitSign_decimalChars (n : Int) :
    Numeral.splitSign (decimalChars n) = (decide (n < 0), Nat.toDigits 10 n.natAbs) := by
  rw [decimalChars]
  split_ifs with hn
  · simp [Numeral.splitSign, hn]
  · simp [splitSign_toDigits, hn]

/-- A decimal numeral has the value it was written for. -/
private theorem integerValue_decimalChars (n : Int) :
    Numeral.integerValue (decimalChars n) = n := by
  have hdigits : Numeral.digitsValue (Nat.toDigits 10 n.natAbs) = n.natAbs :=
    Nat.ofDigitChars_ten_toDigits
  simp only [Numeral.integerValue, splitSign_decimalChars, hdigits, decide_eq_true_eq]
  omega

/-- A decimal numeral is a plain atom. -/
private theorem isPlainAtom_decimalChars (n : Int) : isPlainAtom (decimalChars n) = true := by
  have hplain := fun c hc => plain_of_isDigit (isDigit_toDigits n.natAbs c hc)
  rw [decimalChars]
  split_ifs with hn
  · have hminus : isBlank '-' = false ∧ '-' ∉ marks := by decide
    simpa [isPlainAtom, hminus] using fun x hx => (hplain x hx).1
  · cases hcs : Nat.toDigits 10 n.natAbs with
    | nil => exact absurd hcs Nat.toDigits_ne_nil
    | cons c cs =>
      rw [hcs] at hplain
      obtain ⟨-, hblank, hcomment, hmarks, -⟩ := hplain c List.mem_cons_self
      simpa [isPlainAtom, hblank, hcomment, hmarks] using
        fun x hx => (hplain x (List.mem_cons_of_mem _ hx)).1

/-- A decimal numeral is read back as an integer. -/
private theorem spelling_decimalChars (n : Int) : Spelling .integer (decimalChars n) := by
  have hkind : classifyAtom (decimalChars n) = .integer := by
    simp [classifyAtom, Numeral.isInteger, splitSign_decimalChars, Nat.toDigits_ne_nil,
      List.all_eq_true.mpr (isDigit_toDigits n.natAbs)]
  exact hkind ▸ spelling_of_isPlainAtom (isPlainAtom_decimalChars n)

/-- The decimal numeral of a word denotes that word. -/
private theorem word?_decimalChars (w : Int64) : Numeral.word? (decimalChars w.toInt) = some w := by
  have hmin := Int64.minValue_le_toInt w
  have hmax := Int64.toInt_le w
  rw [Numeral.word?, integerValue_decimalChars, if_pos (by simp only [hmin, hmax]; rfl),
    Int64.ofInt_toInt]

/-! ### Strings -/

/-- A character inside a string. -/
def escapeChar (c : Char) : List Char :=
  if c = '\\' ∨ c = '\x22' then ['\\', c] else [c]

/-- The run of an escaped string ends at its closing quote. -/
private theorem stringRun?_escaped (cs rest : List Char) :
    stringRun? (cs.flatMap escapeChar ++ '\x22' :: rest) =
      some (cs.flatMap escapeChar ++ ['\x22'], rest) := by
  induction cs with
  | nil => rfl
  | cons c cs ih =>
    rw [List.flatMap_cons, escapeChar]
    split_ifs with hc
    · simp [stringRun?, ih]
    · obtain ⟨hslash, hquote⟩ := not_or.mp hc
      simp [stringRun?, ih, hslash]

/-- Escaping is undone on reading. -/
private theorem unescape_escaped (cs : List Char) :
    unescape (cs.flatMap escapeChar ++ ['\x22']) = .ok cs := by
  induction cs with
  | nil => rfl
  | cons c cs ih =>
    rw [List.flatMap_cons, escapeChar]
    split_ifs with hc
    · obtain rfl | rfl := hc <;> simp [unescape, ih, Except.map]
    · obtain ⟨hslash, hquote⟩ := not_or.mp hc
      simp [unescape, ih, hslash, Except.map]

/-- An escaped string between quotes is read back as a string. -/
private theorem spelling_string (cs : List Char) :
    Spelling .string ('\x22' :: (cs.flatMap escapeChar ++ ['\x22'])) := by
  refine ⟨⟨'\x22', _, rfl, by decide, by decide⟩, fun rest _ => ?_⟩
  rw [List.cons_append, List.append_assoc, List.singleton_append, scan, stringRun?_escaped]

/-! ### Literals -/

/-- A character behind a hash and a backslash is read back as a character. -/
private theorem spelling_character (c : Char) : Spelling .character ['#', '\\', c] := by
  refine ⟨⟨'#', _, rfl, by decide, by decide⟩, fun rest hrest => ?_⟩
  have hrun : atomRun rest = ([], rest) := atomRun_append_of_ends [] (by simp) hrest
  simp [scan, scanHash, hrun]

private theorem spelling_boolean (b : Bool) :
    Spelling .boolean (if b then "#t" else "#f").toList := by
  refine ⟨⟨'#', [if b then 't' else 'f'], by cases b <;> rfl, by decide, by decide⟩,
    fun rest hrest => ?_⟩
  have hrun : ∀ c, isDelimiter c = false → atomRun (c :: rest) = ([c], rest) :=
    fun c hc => atomRun_append_of_ends [c] (by simpa using hc) hrest
  cases b
  · have hscan : scanHash ('f' :: rest) = ⟨.ok (.atom .boolean), ['#', 'f'], rest⟩ := by
      rw [scanHash, hrun 'f' (by decide)]
      · rfl
      all_goals simp
    exact congrArg some hscan
  · have hscan : scanHash ('t' :: rest) = ⟨.ok (.atom .boolean), ['#', 't'], rest⟩ := by
      rw [scanHash, hrun 't' (by decide)]
      · rfl
      all_goals simp
    exact congrArg some hscan

namespace Literal

/-- The canonical text of a literal. Doubles have none that is read back; their bits take the
place. -/
def canonical : Literal → SExpr
  | .integer value => .atom .integer (String.ofList (decimalChars value.toInt))
  | .double value => .atom .decimal value.hex
  | .character value => .atom .character (String.ofList ['#', '\\', value])
  | .boolean value => .atom .boolean (if value then "#t" else "#f")
  | .string value =>
    .atom .string (String.ofList ('\x22' :: (value.toList.flatMap escapeChar ++ ['\x22'])))
  | .empty => .quoted (.list [])

/-- Whether a literal is read back from its canonical text. -/
def isReadable : Literal → Bool
  | .double _ => false
  | _ => true

/-- The canonical text of a readable literal spells it. -/
theorem spelled_canonical {v : Literal} (h : v.isReadable = true) : v.canonical.Spelled := by
  cases v with
  | integer value =>
    rw [canonical, SExpr.Spelled, String.toList_ofList]
    exact spelling_decimalChars _
  | double value => cases h
  | character value =>
    rw [canonical, SExpr.Spelled, String.toList_ofList]
    exact spelling_character value
  | boolean value => exact spelling_boolean value
  | string value =>
    rw [canonical, SExpr.Spelled, String.toList_ofList]
    exact spelling_string value.toList
  | empty => trivial

/-- What is read from the canonical text of a readable literal is that literal. -/
theorem toExpr_canonical {v : Literal} {d : Datum} (h : v.isReadable = true)
    (hd : d.sexpr = v.canonical) : d.toExpr = .ok (.literal v) := by
  cases v with
  | integer value =>
    obtain ⟨span, rfl⟩ := eq_atom_of_sexpr hd
    rw [Datum.toExpr, atomExpr, String.toList_ofList, word?_decimalChars]
    rfl
  | double value => cases h
  | character value =>
    obtain ⟨span, rfl⟩ := eq_atom_of_sexpr hd
    rw [Datum.toExpr, atomExpr, String.toList_ofList]
    rfl
  | boolean value =>
    obtain ⟨span, rfl⟩ := eq_atom_of_sexpr hd
    cases value <;> rfl
  | string value =>
    obtain ⟨span, rfl⟩ := eq_atom_of_sexpr hd
    rw [Datum.toExpr, atomExpr, String.toList_ofList, List.drop_succ_cons, List.drop_zero,
      unescape_escaped, Except.map, String.ofList_toList]
    rfl
  | empty =>
    obtain ⟨x, span, rfl, hx⟩ := eq_quoted_of_sexpr hd
    obtain ⟨items, inner, rfl, hitems⟩ := eq_list_of_sexpr hx
    cases items with
    | nil => rfl
    | cons item items => cases hitems

end Literal

end WordScheme
