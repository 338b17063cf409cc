import Mathlib
import WordScheme.Proofs.PlainText
import WordScheme.Proofs.StringConstants

/-!
# Printed names can be read back

Bytes are printed so that they can be told from the text again: `unescapeBytes?` undoes
`escapeBytes`, two hexadecimal digits behind a backslash standing for a byte. With it a name can be
taken off the front of a text, whatever follows it that could not belong to a name
(`takeName?_quotedName`), so different names are printed differently, bare or quoted, and in any
surroundings (`quotedName_append_inj`). What is printed is printable ASCII, and between its quotes a
name has no quote.
-/

namespace WordScheme

/-! ### Escaped bytes -/

/-- Printable ASCII. -/
def isPrintable (c : Char) : Bool :=
  0x20 ≤ c.toNat && c.toNat ≤ 0x7E

/-- The bytes that an escaped text stands for. Two hexadecimal digits behind a backslash are a byte,
and any other printable character is its own. -/
def unescapeBytes? : List Char → Option (List UInt8)
  | [] => some []
  | '\\' :: high :: low :: cs => do
    let high ← hexValue? high
    let low ← hexValue? low
    (unescapeBytes? cs).map ((16 * high + low).toUInt8 :: ·)
  | c :: cs =>
    if isPrintable c && c != '\\' then (unescapeBytes? cs).map (c.toNat.toUInt8 :: ·) else none

/-- A hexadecimal digit has its value. -/
private theorem hexValue?_hexDigit {n : Nat} (h : n < 16) : hexValue? (hexDigit n) = some n := by
  interval_cases n <;> rfl

/-- A hexadecimal digit is printable. -/
private theorem isPrintable_hexDigit {n : Nat} (h : n < 16) :
    isPrintable (hexDigit n) = true ∧ hexDigit n ≠ '\x22' := by
  interval_cases n <;> decide

/-- A byte that stands for itself is a printable character, and neither a quote nor a backslash. -/
private theorem isPrintable_of_isBareByte {b : UInt8} (h : isBareByte b = true) :
    (Char.ofNat b.toNat).toNat = b.toNat ∧ isPrintable (Char.ofNat b.toNat) = true ∧
      Char.ofNat b.toNat ≠ '\x22' ∧ Char.ofNat b.toNat ≠ '\\' := by
  simp only [isBareByte, Bool.and_eq_true, decide_eq_true_eq, bne_iff_ne, ne_eq,
    UInt8.le_iff_toNat_le, ← UInt8.toNat_inj] at h
  obtain ⟨⟨⟨hlow, hhigh⟩, hquote⟩, hslash⟩ := h
  change 0x20 ≤ b.toNat at hlow
  change b.toNat ≤ 0x7E at hhigh
  have htoNat : (Char.ofNat b.toNat).toNat = b.toNat := by
    rw [Char.toNat_ofNat, if_pos (.inl (by omega))]
  refine ⟨htoNat, ?_, fun heq => hquote ?_, fun heq => hslash ?_⟩
  · rw [isPrintable, htoNat, Bool.and_eq_true, decide_eq_true_eq, decide_eq_true_eq]
    exact ⟨hlow, hhigh⟩
  · rw [← htoNat, heq]
    rfl
  · rw [← htoNat, heq]
    rfl

private theorem hexDigit_lt (b : UInt8) : b.toNat / 16 < 16 ∧ b.toNat % 16 < 16 := by
  have := b.toNat_lt
  omega

private theorem hexByte_eq (b : UInt8) :
    hexByte b = [hexDigit (b.toNat / 16), hexDigit (b.toNat % 16)] := by
  rw [hexByte, hexDigits, hexDigits, hexDigits, Nat.mod_eq_of_lt (hexDigit_lt b).1]
  rfl

/-- An escaped byte is printable, and no quote. -/
private theorem isPrintable_escapeByte (b : UInt8) :
    ∀ c ∈ escapeByte b, isPrintable c = true ∧ c ≠ '\x22' := by
  rw [escapeByte]
  split_ifs with hbare
  · obtain ⟨-, hprintable, hquote, -⟩ := isPrintable_of_isBareByte hbare
    simpa using ⟨hprintable, hquote⟩
  · obtain ⟨hhigh, hlow⟩ := hexDigit_lt b
    rw [hexByte_eq]
    simpa using ⟨by decide, isPrintable_hexDigit hhigh, isPrintable_hexDigit hlow⟩

/-- Escaped bytes are printable, and hold no quote. -/
theorem isPrintable_escapeBytes (bytes : List UInt8) :
    ∀ c ∈ (escapeBytes bytes).toList, isPrintable c = true ∧ c ≠ '\x22' := by
  rw [escapeBytes, String.toList_ofList]
  intro c hc
  obtain ⟨b, -, hc⟩ := List.mem_flatMap.mp hc
  exact isPrintable_escapeByte b c hc

/-- An escaped byte in front of a text stands for that byte. -/
private theorem unescapeBytes?_escapeByte (b : UInt8) (cs : List Char) :
    unescapeBytes? (escapeByte b ++ cs) = (unescapeBytes? cs).map (b :: ·) := by
  rw [escapeByte]
  split_ifs with hbare
  · obtain ⟨htoNat, hprintable, -, hslash⟩ := isPrintable_of_isBareByte hbare
    have htest : (isPrintable (Char.ofNat b.toNat) && Char.ofNat b.toNat != '\\') = true := by
      simp [hprintable, hslash]
    have hbyte : b.toNat.toUInt8 = b := UInt8.ofNat_toNat
    rw [List.singleton_append, unescapeBytes?, if_pos htest, htoNat, hbyte]
    exact fun _ _ _ heq _ => hslash heq
  · obtain ⟨hhigh, hlow⟩ := hexDigit_lt b
    have hbyte : (16 * (b.toNat / 16) + b.toNat % 16).toUInt8 = b := by
      rw [Nat.div_add_mod]
      exact UInt8.ofNat_toNat
    rw [hexByte_eq, List.cons_append, List.cons_append, List.singleton_append, unescapeBytes?,
      hexValue?_hexDigit hhigh, hexValue?_hexDigit hlow]
    simp only [Option.bind_eq_bind, Option.bind_some, hbyte]

/-- **Escaped bytes can be read back.** -/
theorem unescapeBytes?_escapeBytes (bytes : List UInt8) :
    unescapeBytes? (escapeBytes bytes).toList = some bytes := by
  rw [escapeBytes, String.toList_ofList]
  induction bytes with
  | nil => rfl
  | cons b bytes ih => rw [List.flatMap_cons, unescapeBytes?_escapeByte, ih, Option.map_some]

/-! ### Names -/

/-- A character that may stand behind the first of a bare name. -/
def isNameChar (c : Char) : Bool :=
  c.isAlphanum || isNamePunctuation c

/-- A text that does not go on with a name in front of it. -/
def Breaks (cs : List Char) : Prop :=
  ∀ c ∈ cs.head?, isNameChar c = false

theorem breaks_nil : Breaks [] := by
  simp [Breaks]

theorem breaks_cons {c : Char} (h : isNameChar c = false) (cs : List Char) : Breaks (c :: cs) := by
  simpa [Breaks] using h

/-- Takes a printed name off the front of a text: what is between quotes, or else as much as could
stand in a bare name. It gives the bytes of the name and the text behind it. -/
def takeName? : List Char → Option (List UInt8 × List Char)
  | '\x22' :: cs =>
    (unescapeBytes? (cs.takeWhile (· != '\x22'))).map fun bytes =>
      (bytes, (cs.dropWhile (· != '\x22')).tail)
  | cs => some (utf8Bytes (String.ofList (cs.takeWhile isNameChar)), cs.dropWhile isNameChar)

/-- The characters of a bare name are printable. -/
theorem isPrintable_of_isNameChar {c : Char} (h : isNameChar c = true) :
    isPrintable c = true ∧ c ≠ '\x22' := by
  rcases Bool.or_eq_true_iff.mp h with hc | hc
  · have hrange : (65 ≤ c.toNat ∧ c.toNat ≤ 90 ∨ 97 ≤ c.toNat ∧ c.toNat ≤ 122) ∨
        48 ≤ c.toNat ∧ c.toNat ≤ 57 := by
      simpa [Char.isAlphanum, Char.isAlpha, Char.isUpper, Char.isLower, Char.isDigit,
        UInt32.le_iff_toNat_le] using hc
    refine ⟨?_, ?_⟩
    · rw [isPrintable, Bool.and_eq_true, decide_eq_true_eq, decide_eq_true_eq]
      omega
    · rintro rfl
      revert hrange
      decide
  · simp only [isNamePunctuation, Bool.or_eq_true, beq_iff_eq] at hc
    obtain ((rfl | rfl) | rfl) | rfl := hc <;> decide

theorem isNameChar_of_isBareName {cs : List Char} (h : isBareName cs = true) :
    ∀ c ∈ cs, isNameChar c = true := by
  cases cs with
  | nil => cases h
  | cons c cs =>
    obtain ⟨hc, hcs⟩ := Bool.and_eq_true_iff.mp h
    refine List.forall_mem_cons.mpr ⟨?_, List.all_eq_true.mp hcs⟩
    rcases Bool.or_eq_true_iff.mp hc with hc | hc
    · rw [isNameChar, Char.isAlphanum, hc, Bool.true_or, Bool.true_or]
    · rw [isNameChar, hc, Bool.or_true]

/-- A name as it is printed: bare, or between quotes with its bytes escaped. -/
private theorem quotedName_cases (name : Name) :
    quotedName name = name ∧ (∀ c ∈ name.toList, isNameChar c = true) ∧ name.toList ≠ [] ∨
      (quotedName name).toList = '\x22' :: ((escapeBytes (utf8Bytes name)).toList ++ ['\x22']) := by
  rw [quotedName]
  split_ifs with hbare
  · refine .inl ⟨rfl, isNameChar_of_isBareName hbare, fun hnil => ?_⟩
    rw [hnil] at hbare
    cases hbare
  · refine .inr ?_
    rw [String.toList_append, String.toList_append]
    rfl

/-- A run of characters with a property ends where a text without it begins. -/
theorem takeWhile_append_of_ends {p : Char → Bool} {cs rest : List Char}
    (hcs : ∀ c ∈ cs, p c = true) (hrest : ∀ c ∈ rest.head?, p c = false) :
    (cs ++ rest).takeWhile p = cs ∧ (cs ++ rest).dropWhile p = rest := by
  rw [List.takeWhile_append_of_pos hcs, List.dropWhile_append_of_pos hcs]
  cases rest with
  | nil => simp
  | cons c rest => simp [hrest c rfl]

/-- **A printed name can be taken off the front of a text.** -/
theorem takeName?_quotedName (name : Name) {rest : List Char} (h : Breaks rest) :
    takeName? ((quotedName name).toList ++ rest) = some (utf8Bytes name, rest) := by
  obtain ⟨hbare, hchars, hne⟩ | hquoted := quotedName_cases name
  · obtain ⟨htake, hdrop⟩ := takeWhile_append_of_ends hchars h
    obtain ⟨c, cs, hname⟩ := List.exists_cons_of_ne_nil hne
    have hquote : c ≠ '\x22' := (isPrintable_of_isNameChar (hchars c (by simp [hname]))).2
    rw [hbare, takeName?, htake, hdrop, String.ofList_toList]
    rintro tail heq
    rw [hname] at heq
    exact hquote (List.cons.inj heq).1
  · have hplain : ∀ c ∈ (escapeBytes (utf8Bytes name)).toList, (c != '\x22') = true :=
      fun c hc => bne_iff_ne.mpr (isPrintable_escapeBytes _ c hc).2
    have hends : ∀ c ∈ ('\x22' :: rest).head?, (c != '\x22') = false := by simp
    obtain ⟨htake, hdrop⟩ := takeWhile_append_of_ends hplain hends
    rw [hquoted, List.cons_append, List.append_assoc, List.singleton_append, takeName?, htake,
      hdrop, unescapeBytes?_escapeBytes]
    rfl

/-- Different names are printed differently, in any surroundings. -/
theorem quotedName_append_inj {a b : Name} {x y : List Char} (hx : Breaks x) (hy : Breaks y)
    (h : (quotedName a).toList ++ x = (quotedName b).toList ++ y) : a = b ∧ x = y := by
  have htake := takeName?_quotedName a hx
  rw [h, takeName?_quotedName b hy] at htake
  obtain ⟨hbytes, hrest⟩ := Prod.mk.inj (Option.some.inj htake)
  exact ⟨(utf8Bytes_injective hbytes).symm, hrest.symm⟩

/-- **Names are printed differently.** -/
theorem quotedName_injective : Function.Injective quotedName := by
  intro a b h
  exact (quotedName_append_inj breaks_nil breaks_nil (by rw [h])).1

/-- Names are printed differently behind any sigil. -/
theorem sigilName_injective (sigil : String) : Function.Injective (sigilName sigil) := by
  intro a b h
  refine quotedName_injective (String.toList_inj.mp ?_)
  have hchars := congrArg String.toList h
  rwa [sigilName, sigilName, String.toList_append, String.toList_append,
    List.append_cancel_left_eq] at hchars

end WordScheme
