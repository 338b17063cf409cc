/-!
# Removing escape sequences

`strip` keeps what a terminal would print and drops the rest: control characters other than the
newline, and escape sequences up to the character that ends them. It is a machine with one state
per kind of unfinished sequence, so a sequence that never ends swallows what follows it. A newline
is still written inside a control sequence.
-/

namespace WordScheme

/-- What kind of sequence the text is inside of. -/
inductive StripState where
  /-- Outside every sequence. -/
  | ground
  /-- Just after the escape character. -/
  | escape
  /-- After the escape character and an intermediate one. -/
  | escapeMore
  /-- Inside a control sequence, which a character from `@` to `~` ends. -/
  | control
  /-- Inside a command string; the bell ends those that are operating system commands. -/
  | command (bellEnds : Bool)
deriving DecidableEq, Repr

/-- Whether the code point lies in the range, ends included. -/
private def within (c : Char) (lo hi : Nat) : Bool :=
  lo ≤ c.toNat && c.toNat ≤ hi

/-- A control character inside an unfinished sequence: two of them cancel the sequence, the escape
character starts a new one, the others leave it open. -/
private def interrupt (s : StripState) (c : Char) : StripState :=
  if c == '\x18' || c == '\x1a' then .ground
  else if c == '\x1b' then .escape
  else s

/-- The state after one character. -/
def StripState.next (s : StripState) (c : Char) : StripState :=
  match s with
  | .ground => if c == '\x1b' then .escape else .ground
  | .escape =>
    if within c 0 0x1F then interrupt .escape c
    else if c == '[' then .control
    else if c == ']' then .command true
    else if c == 'P' || c == 'X' || c == '^' || c == '_' then .command false
    else if within c 0x20 0x2F then .escapeMore
    else if within c 0x30 0x7E then .ground
    else .escape
  | .escapeMore =>
    if within c 0 0x1F then interrupt .escapeMore c
    else if within c 0x30 0x7E then .ground
    else .escapeMore
  | .control =>
    if within c 0 0x1F then interrupt .control c
    else if within c 0x40 0x7E then .ground
    else .control
  | .command bellEnds =>
    if bellEnds && c == '\x07' then .ground
    else if within c 0 0x1F then interrupt (.command bellEnds) c
    else .command bellEnds

/-- Whether a character met in this state is printed. -/
def StripState.prints (s : StripState) (c : Char) : Bool :=
  match s with
  | .ground => c == '\n' || !(within c 0 0x1F || within c 0x80 0x9F)
  | .command _ => false
  | _ => c == '\n'

/-- The printed characters of a text that is read from the given state. -/
def stripFrom : StripState → List Char → List Char
  | _, [] => []
  | s, c :: cs =>
    if s.prints c then c :: stripFrom (s.next c) cs else stripFrom (s.next c) cs

/-- The text without escape sequences and control characters. -/
def strip (text : String) : String :=
  String.ofList (stripFrom .ground text.toList)

end WordScheme
