import WordScheme.Text.Strip

/-!
# Messages on a plain stream

A message for a stream without colours loses its escape sequences and its control characters, white
space apart. `visible` differs from `strip` in three ways: tabs, form feeds and carriage returns
stay like the newline; the delete character goes, and all characters beyond ASCII stay; and white
space inside an unfinished sequence brings text back, which stays until a control character takes
the sequence up again.
-/

namespace WordScheme

/-- Whether a message shows this character outside every sequence. -/
def isVisible (c : Char) : Bool :=
  c == '\t' || c == '\n' || c == '\x0c' || c == '\r' || (0x20 ≤ c.toNat && c != '\x7f')

/-- Whether a control character met in this state can still be shown. -/
def StripState.isPorous : StripState → Bool
  | .command _ => false
  | _ => true

/-- The state after a character that is not shown. The byte `9C`, also as a part of a longer
character, ends a command string that the bell does not end. -/
def StripState.nextHidden (s : StripState) (c : Char) : StripState :=
  if s == .command false && (String.utf8EncodeChar c).contains 0x9C then .ground else s.next c

/-- The shown characters of a message. The state is that of the sequence last met, and `inText` says
that text goes on although that sequence is unfinished. -/
def visibleFrom : (inText : Bool) → StripState → List Char → List Char
  | _, _, [] => []
  | inText, s, c :: cs =>
    if isVisible c && (inText || s == .ground || (s.isPorous && c.toNat < 0x20)) then
      c :: visibleFrom true (if c.toNat < 0x80 then s else .ground) cs
    else visibleFrom false (s.nextHidden c) cs

/-- What a plain stream shows of a message. -/
def visible (message : String) : String :=
  String.ofList (visibleFrom false .ground message.toList)

end WordScheme
