import WordScheme.Text.Blank
import WordScheme.Text.Numeral
import WordScheme.Token

/-!
# Scanning

`Cursor.next` skips blanks and comments and takes the next token off a text, or a fault in its
place. Either way it takes at least one character and everything it takes belongs to the span it
reports, so scanning can go on behind a fault, and ends (`Cursor.next_length_lt`).
`Cursor.stream` collects the tokens up to the end of the text or the first fault.
-/

namespace WordScheme

/-! ### One token -/

/-- What was taken off the front of a text, and what kind of token it is unless it is faulty. -/
structure Scanned where
  outcome : Except ReadFault TokenKind
  taken : List Char
  rest : List Char

/-- The kind of an atom that does not start with a hash, by one test of its text after the other:
a decimal is the text of a double with a point, a digit and no letter. -/
def classifyAtom (cs : List Char) : AtomKind :=
  if Numeral.isInteger cs then .integer
  else if cs.contains '.' && cs.any Char.isDigit && Numeral.isDoubleText cs &&
    !cs.any Char.isAlpha then .decimal
  else .identifier

/-- The spellings of the two truth values. -/
def isBooleanText (cs : List Char) : Bool :=
  ["#t", "#f", "#true", "#false"].contains (String.ofList cs)

/-- The characters up to the next delimiter, and those behind. -/
def atomRun (cs : List Char) : List Char × List Char :=
  (cs.takeWhile fun c => !isDelimiter c, cs.dropWhile fun c => !isDelimiter c)

/-- A string behind its opening quote, up to and with the closing one. A backslash takes the next
character along, whatever it is. -/
def stringRun? : List Char → Option (List Char × List Char)
  | [] => none
  | '\x22' :: cs => some (['\x22'], cs)
  | '\\' :: c :: cs => (stringRun? cs).map fun (taken, rest) => ('\\' :: c :: taken, rest)
  | c :: cs => (stringRun? cs).map fun (taken, rest) => (c :: taken, rest)

/-- A token of which the hash has been seen: a vector, a character or a truth value. After `#\`
the next character is always part of the literal, even a delimiter. -/
def scanHash : List Char → Scanned
  | '(' :: cs => ⟨.ok .openVector, ['#', '('], cs⟩
  | ['\\'] => ⟨.error (.unexpectedEnd .characterLiteral), ['#', '\\'], []⟩
  | '\\' :: c :: cs =>
    let (run, rest) := atomRun cs
    ⟨.ok (.atom .character), '#' :: '\\' :: c :: run, rest⟩
  | cs =>
    let (run, rest) := atomRun cs
    let text := '#' :: run
    ⟨if isBooleanText text then .ok (.atom .boolean)
      else .error (.invalidAtom (String.ofList text)), text, rest⟩

/-- The token at the front of a text that starts with no blank and no comment. -/
def scan : List Char → Option Scanned
  | [] => none
  | '(' :: cs => some ⟨.ok .openList, ['('], cs⟩
  | ')' :: cs => some ⟨.ok .closeList, [')'], cs⟩
  | '\x27' :: cs => some ⟨.ok .quote, ['\x27'], cs⟩
  | '\x22' :: cs =>
    match stringRun? cs with
    | some (taken, rest) => some ⟨.ok (.atom .string), '\x22' :: taken, rest⟩
    | none => some ⟨.error .unterminatedString, '\x22' :: cs, []⟩
  | '#' :: cs => some (scanHash cs)
  | c :: cs =>
    let (run, rest) := atomRun cs
    some ⟨.ok (.atom (classifyAtom (c :: run))), c :: run, rest⟩

@[simp]
theorem atomRun_append (cs : List Char) : (atomRun cs).1 ++ (atomRun cs).2 = cs := by
  simp [atomRun]

theorem stringRun?_append {cs taken rest : List Char} (h : stringRun? cs = some (taken, rest)) :
    taken ++ rest = cs := by
  fun_induction stringRun? cs generalizing taken rest with
  | case1 => simp at h
  | case2 cs =>
    cases h
    rfl
  | case3 c cs ih =>
    obtain ⟨⟨t, r⟩, ht, hr⟩ := Option.map_eq_some_iff.1 h
    cases hr
    simp [ih ht]
  | case4 c cs _ _ ih =>
    obtain ⟨⟨t, r⟩, ht, hr⟩ := Option.map_eq_some_iff.1 h
    cases hr
    simp [ih ht]

/-- What is taken after a hash, and what is left, are the text again. -/
theorem scanHash_append (cs : List Char) :
    (scanHash cs).taken ++ (scanHash cs).rest = '#' :: cs := by
  unfold scanHash
  split <;> simp

/-- What is taken and what is left are the text again. -/
theorem scan_append {cs : List Char} {s : Scanned} (h : scan cs = some s) :
    s.taken ++ s.rest = cs := by
  unfold scan at h
  split at h
  case h_5 cs =>
    split at h
    case h_1 taken rest hrun =>
      cases h
      simp [stringRun?_append hrun]
    case h_2 =>
      cases h
      simp
  all_goals
    cases h <;> simp [scanHash_append]

/-- A token or fault takes at least one character. -/
theorem scan_taken_ne_nil {cs : List Char} {s : Scanned} (h : scan cs = some s) :
    s.taken ≠ [] := by
  unfold scan at h
  split at h
  case h_5 cs => split at h <;> cases h <;> simp
  case h_6 cs =>
    cases h
    unfold scanHash
    split <;> simp
  all_goals
    cases h <;> simp

/-! ### Cursors -/

/-- A place in a text: the bytes in front of it and the characters behind it. -/
structure Cursor where
  offset : Nat
  rest : List Char
deriving DecidableEq, Repr

namespace Cursor

/-- The start of a text. -/
def start (cs : List Char) : Cursor :=
  ⟨0, cs⟩

/-- Moves over blanks and comments. A comment runs from a semicolon to the end of its line. -/
def skipFrom (inComment : Bool) (offset : Nat) : List Char → Cursor
  | [] => ⟨offset, []⟩
  | c :: cs =>
    if inComment then skipFrom (c != '\n') (offset + c.utf8Size) cs
    else if isBlank c then skipFrom false (offset + c.utf8Size) cs
    else if c == ';' then skipFrom true (offset + c.utf8Size) cs
    else ⟨offset, c :: cs⟩

/-- The place of the next token, or the end of the text. -/
def skip (c : Cursor) : Cursor :=
  skipFrom false c.offset c.rest

/-- The next token or fault, if the text has one left, and the place behind it. -/
def next (c : Cursor) : Option (Except ReadError Token) × Cursor :=
  let c := c.skip
  match scan c.rest with
  | none => (none, c)
  | some s =>
    let span : Span := ⟨c.offset, c.offset + byteLength s.taken⟩
    let result := match s.outcome with
      | .ok kind => .ok ⟨kind, String.ofList s.taken, span⟩
      | .error fault => .error ⟨fault, span⟩
    (some result, ⟨span.stop, s.rest⟩)

theorem length_skipFrom_le (inComment : Bool) (offset : Nat) (cs : List Char) :
    (skipFrom inComment offset cs).rest.length ≤ cs.length := by
  fun_induction skipFrom inComment offset cs <;> simp <;> omega

/-- Each token or fault leaves less text behind. -/
theorem next_length_lt {c d : Cursor} {r : Except ReadError Token} (h : c.next = (some r, d)) :
    d.rest.length < c.rest.length := by
  have hskip := length_skipFrom_le false c.offset c.rest
  simp only [next] at h
  split at h
  · simp at h
  · rename_i s hs
    have happ := congrArg List.length (scan_append hs)
    have hne := List.length_pos_iff.2 (scan_taken_ne_nil hs)
    simp only [Prod.mk.injEq] at h
    simp only [List.length_append] at happ
    simp only [← h.2, skip] at happ ⊢
    omega

end Cursor

/-! ### Streams -/

/-- Why a stream of tokens ends. -/
inductive Ending where
  /-- The text ends, this many bytes in. -/
  | finished (offset : Nat)
  | fault (error : ReadError)
deriving DecidableEq, Repr

/-- The tokens of a text up to its end or its first fault. -/
structure TokenStream where
  tokens : List Token
  ending : Ending
deriving DecidableEq, Repr

/-- The tokens from a place on. -/
def Cursor.stream (c : Cursor) : TokenStream :=
  match _next : c.next with
  | (none, d) => ⟨[], .finished d.offset⟩
  | (some (.error e), _) => ⟨[], .fault e⟩
  | (some (.ok t), d) =>
    let later := d.stream
    ⟨t :: later.tokens, later.ending⟩
termination_by c.rest.length
decreasing_by exact next_length_lt (by assumption)

/-- The tokens of a text. -/
def TokenStream.ofText (text : String) : TokenStream :=
  (Cursor.start text.toList).stream

end WordScheme
