import Mathlib
import WordScheme.Program
import WordScheme.Proofs.AtomSpellings
import WordScheme.Proofs.ReadingSafety
import WordScheme.Proofs.Tiling

/-!
# The grammars of numerals

An atom that does not begin with a hash is an integer, a decimal or an identifier. `classifyAtom`
finds out by a chain of tests that know nothing of each other: whether the text has a point, has a
digit, is the text of a double in the usual sense, and has no letter. What comes of it is told by
two regular expressions (`classifyAtom_fits`). The texts of doubles are a larger grammar, with
exponents and the names of infinity and of what is not a number; letters and points are what sets
them apart from decimals (`Numeral.isDecimal_iff_tests`), and the search for them agrees with the
grammar (`Numeral.isDoubleText_eq`).

An integer is read as the number that its digits make in base ten (`Numeral.Denotes`), if a word has
that value. `atoms_exact` puts this together for the tokens of a text.
-/

namespace WordScheme

namespace Numeral

open RegularExpression

/-! ### Grammars -/

/-- `[0-9]` -/
def digit : RegularExpression Char :=
  char '0' + char '1' + char '2' + char '3' + char '4' + char '5' + char '6' + char '7' + char '8'
    + char '9'

/-- `[0-9]+` -/
def digits : RegularExpression Char :=
  digit * star digit

/-- `[+-]?` -/
def optionalSign : RegularExpression Char :=
  1 + char '+' + char '-'

/-- `[+-]?[0-9]+` -/
def integerGrammar : RegularExpression Char :=
  optionalSign * digits

/-- `[+-]?([0-9]+\.[0-9]*|\.[0-9]+)` -/
def decimalGrammar : RegularExpression Char :=
  optionalSign * (digits * char '.' * star digit + char '.' * digits)

/-- The digits are ten. -/
private theorem isDigit_iff_mem {c : Char} :
    c.isDigit = true ↔ c ∈ ['0', '1', '2', '3', '4', '5', '6', '7', '8', '9'] := by
  refine ⟨fun h => ?_, fun h => ?_⟩
  · have hrange : 48 ≤ c.toNat ∧ c.toNat ≤ 57 := Char.isDigit_iff_toNat.mp h
    obtain ⟨hlow, hhigh⟩ := hrange
    have hc : c = Char.ofNat c.toNat := (Char.ofNat_toNat c).symm
    generalize c.toNat = n at *
    subst hc
    interval_cases n <;> decide
  · simp only [List.mem_cons, List.not_mem_nil, or_false] at h
    rcases h with rfl | rfl | rfl | rfl | rfl | rfl | rfl | rfl | rfl | rfl <;> rfl

private theorem mem_char {c : Char} {x : List Char} : x ∈ (char c).matches' ↔ x = [c] :=
  Iff.rfl

/-- `digit` matches one digit. -/
private theorem mem_digit {x : List Char} :
    x ∈ digit.matches' ↔ ∃ c, c.isDigit = true ∧ x = [c] := by
  simp only [digit, matches'_add, Language.mem_add, mem_char, isDigit_iff_mem, List.mem_cons,
    List.not_mem_nil, or_false, or_and_right, exists_or, exists_eq_left, or_assoc]

/-- `star digit` matches digits, if any. -/
private theorem mem_star_digit {x : List Char} :
    x ∈ (star digit).matches' ↔ ∀ c ∈ x, c.isDigit = true := by
  rw [matches'_star, Language.mem_kstar]
  constructor
  · rintro ⟨words, rfl, hwords⟩ c hc
    obtain ⟨word, hword, hmem⟩ := List.mem_flatten.mp hc
    obtain ⟨d, hd, rfl⟩ := mem_digit.mp (hwords word hword)
    rwa [List.mem_singleton.mp hmem]
  · intro h
    refine ⟨x.map fun c => [c], ?_, fun word hword => ?_⟩
    · rw [← List.flatMap_def, List.flatMap_singleton']
    · obtain ⟨c, hc, rfl⟩ := List.mem_map.mp hword
      exact mem_digit.mpr ⟨c, h c hc, rfl⟩

/-- `digits` matches one digit or more. -/
theorem mem_digits {x : List Char} :
    x ∈ digits.matches' ↔ x ≠ [] ∧ ∀ c ∈ x, c.isDigit = true := by
  rw [digits, matches'_mul, Language.mem_mul]
  constructor
  · rintro ⟨a, ha, b, hb, rfl⟩
    obtain ⟨c, hc, rfl⟩ := mem_digit.mp ha
    exact ⟨by simp, List.forall_mem_cons.mpr ⟨hc, mem_star_digit.mp hb⟩⟩
  · rintro ⟨hne, hall⟩
    obtain ⟨c, cs, rfl⟩ := List.exists_cons_of_ne_nil hne
    obtain ⟨hc, hcs⟩ := List.forall_mem_cons.mp hall
    exact ⟨[c], mem_digit.mpr ⟨c, hc, rfl⟩, cs, mem_star_digit.mpr hcs, rfl⟩

/-- `optionalSign` matches a sign or nothing. -/
theorem mem_optionalSign {x : List Char} :
    x ∈ optionalSign.matches' ↔ x = [] ∨ x = ['+'] ∨ x = ['-'] := by
  rw [optionalSign, matches'_add, matches'_add, Language.mem_add, Language.mem_add,
    matches'_epsilon, Language.mem_one, mem_char, mem_char, or_assoc]

/-- Digits with one point in front of them, behind them or among them. -/
theorem mem_pointed {x : List Char} :
    x ∈ (digits * char '.' * star digit + char '.' * digits).matches' ↔
      ∃ whole places, x = whole ++ '.' :: places ∧ (∀ c ∈ whole, c.isDigit = true) ∧
        (∀ c ∈ places, c.isDigit = true) ∧ (whole ≠ [] ∨ places ≠ []) := by
  rw [matches'_add, matches'_mul, matches'_mul, matches'_mul, Language.mem_add]
  constructor
  · rintro (⟨a, ⟨whole, hwhole, point, hpoint, rfl⟩, places, hplaces, rfl⟩ |
      ⟨point, hpoint, places, hplaces, rfl⟩)
    · obtain ⟨hne, hdigits⟩ := mem_digits.mp hwhole
      cases mem_char.mp hpoint
      exact ⟨whole, places, by simp, hdigits, mem_star_digit.mp hplaces, .inl hne⟩
    · obtain ⟨hne, hdigits⟩ := mem_digits.mp hplaces
      cases mem_char.mp hpoint
      exact ⟨[], places, rfl, by simp, hdigits, .inr hne⟩
  · rintro ⟨whole, places, rfl, hwhole, hplaces, hne⟩
    by_cases hnil : whole = []
    · subst hnil
      have hplaces' := mem_digits.mpr ⟨hne.resolve_left (absurd rfl), hplaces⟩
      exact .inr ⟨['.'], rfl, places, hplaces', rfl⟩
    · refine .inl ⟨whole ++ ['.'], ⟨whole, mem_digits.mpr ⟨hnil, hwhole⟩, ['.'], rfl, rfl⟩, places,
        mem_star_digit.mpr hplaces, ?_⟩
      simp

/-- In front of a text that begins with no sign, the sign that is split off is the one there. -/
private theorem mem_optionalSign_mul {r : RegularExpression Char} {x : List Char}
    (hr : ∀ y ∈ r.matches', '+' ∉ y.head? ∧ '-' ∉ y.head?) :
    x ∈ (optionalSign * r).matches' ↔ (splitSign x).2 ∈ r.matches' := by
  rw [matches'_mul, Language.mem_mul]
  constructor
  · rintro ⟨a, ha, y, hy, rfl⟩
    obtain rfl | rfl | rfl := mem_optionalSign.mp ha
    · obtain ⟨hplus, hminus⟩ := hr y hy
      rw [List.nil_append, splitSign]
      · exact hy
      · rintro cs rfl
        exact hminus rfl
      · rintro cs rfl
        exact hplus rfl
    · exact hy
    · exact hy
  · fun_cases splitSign x with
    | case1 cs => exact fun h => ⟨['-'], mem_optionalSign.mpr (.inr (.inr rfl)), cs, h, rfl⟩
    | case2 cs => exact fun h => ⟨['+'], mem_optionalSign.mpr (.inr (.inl rfl)), cs, h, rfl⟩
    | case3 => exact fun h => ⟨[], mem_optionalSign.mpr (.inl rfl), x, h, rfl⟩

/-! ### Shapes of atoms -/

/-- The test for integers agrees with their grammar. -/
private theorem isInteger_iff {cs : List Char} :
    isInteger cs = true ↔ cs ∈ integerGrammar.matches' := by
  rw [integerGrammar, mem_optionalSign_mul, mem_digits, isInteger]
  · simp
  · intro y hy
    obtain ⟨hne, hdigits⟩ := mem_digits.mp hy
    obtain ⟨c, y, rfl⟩ := List.exists_cons_of_ne_nil hne
    obtain ⟨-, -, -, -, hminus, hplus⟩ := plain_of_isDigit (hdigits c List.mem_cons_self)
    simp [hminus, hplus]

/-- A text is split at its point if digits surround it, on one side at least. -/
private theorem splitPoint?_isSome {cs : List Char} : (splitPoint? cs).isSome = true ↔
    ∃ whole places, cs = whole ++ '.' :: places ∧ (∀ c ∈ whole, c.isDigit = true) ∧
      (∀ c ∈ places, c.isDigit = true) ∧ (whole ≠ [] ∨ places ≠ []) := by
  constructor
  · fun_cases splitPoint? cs with
    | case1 whole places hdrop htest =>
      intro _
      rw [Bool.and_eq_true, List.all_eq_true] at htest
      refine ⟨whole, places, ?_, fun c hc => List.mem_takeWhile_imp hc, htest.1, ?_⟩
      · rw [← hdrop, List.takeWhile_append_dropWhile]
      · simpa [or_iff_not_imp_left] using htest.2
    | case2 => simp
    | case3 => simp
  · rintro ⟨whole, places, rfl, hwhole, hplaces, hne⟩
    have htake : (whole ++ '.' :: places).takeWhile Char.isDigit = whole := by
      rw [List.takeWhile_append_of_pos hwhole, List.takeWhile_cons_of_neg (by decide),
        List.append_nil]
    have hdrop : (whole ++ '.' :: places).dropWhile Char.isDigit = '.' :: places := by
      rw [List.dropWhile_append_of_pos hwhole, List.dropWhile_cons_of_neg (by decide)]
    have htest : (places.all Char.isDigit && !(whole.isEmpty && places.isEmpty)) = true := by
      rw [Bool.and_eq_true, List.all_eq_true]
      exact ⟨hplaces, by simpa [or_iff_not_imp_left] using hne⟩
    rw [splitPoint?, htake, hdrop]
    simp only [htest, if_true, Option.isSome_some]

/-- A sign, if any, and digits with one point. -/
def isDecimal (cs : List Char) : Bool :=
  (splitPoint? (splitSign cs).2).isSome

/-- The test for decimals agrees with their grammar. -/
private theorem isDecimal_iff {cs : List Char} :
    isDecimal cs = true ↔ cs ∈ decimalGrammar.matches' := by
  rw [decimalGrammar, mem_optionalSign_mul, mem_pointed, isDecimal, splitPoint?_isSome]
  intro y hy
  obtain ⟨whole, places, rfl, hwhole, -⟩ := mem_pointed.mp hy
  cases whole with
  | nil => simp
  | cons c whole =>
    obtain ⟨-, -, -, -, hminus, hplus⟩ := plain_of_isDigit (hwhole c List.mem_cons_self)
    simp [hminus, hplus]

/-! ### Texts of doubles -/

/-- One text only. -/
def word (cs : List Char) : RegularExpression Char :=
  cs.foldr (fun c r => char c * r) 1

/-- `[0-9]+|[0-9]+\.[0-9]*|[0-9]*\.[0-9]+` -/
def unsignedGrammar : RegularExpression Char :=
  digits + digits * char '.' * star digit + star digit * char '.' * digits

/-- `e[+-]?[0-9]+` -/
def exponentGrammar : RegularExpression Char :=
  char 'e' * optionalSign * digits

/-- The texts of doubles in small letters: infinity, not a number, or a numeral with an optional
exponent, each behind an optional sign. -/
def doubleGrammar : RegularExpression Char :=
  optionalSign * (word "inf".toList + word "infinity".toList + word "nan".toList +
    unsignedGrammar * (1 + exponentGrammar))

/-- Whether a text, in letters of either case, is one of the grammar. -/
def matchesDouble (cs : List Char) : Bool :=
  doubleGrammar.rmatch (cs.map Char.toLower)

/-- `word` matches its text only. -/
private theorem mem_word {cs x : List Char} : x ∈ (word cs).matches' ↔ x = cs := by
  induction cs generalizing x with
  | nil => exact Iff.rfl
  | cons c cs ih =>
    change x ∈ (char c * word cs).matches' ↔ _
    rw [matches'_mul, Language.mem_mul]
    constructor
    · rintro ⟨a, ha, y, hy, rfl⟩
      rw [mem_char.mp ha, ih.mp hy]
      rfl
    · rintro rfl
      exact ⟨[c], rfl, cs, ih.mpr rfl, rfl⟩

/-- Without a point a numeral has digits only. -/
private theorem mem_unsignedGrammar {x : List Char} : x ∈ unsignedGrammar.matches' ↔
    x ∈ digits.matches' ∨ x ∈ (digits * char '.' * star digit + char '.' * digits).matches' := by
  rw [unsignedGrammar, matches'_add, matches'_add, Language.mem_add, Language.mem_add, or_assoc]
  refine or_congr_right ⟨?_, ?_⟩
  · rintro (h | ⟨a, ⟨whole, hwhole, point, hpoint, rfl⟩, places, hplaces, rfl⟩)
    · exact .inl h
    · obtain ⟨hne, hdigits⟩ := mem_digits.mp hplaces
      cases mem_char.mp hpoint
      exact mem_pointed.mpr ⟨whole, places, by simp, mem_star_digit.mp hwhole, hdigits, .inr hne⟩
  · rintro (h | ⟨point, hpoint, places, hplaces, rfl⟩)
    · exact .inl h
    · refine .inr ⟨point, ⟨[], ?_, point, hpoint, rfl⟩, places, hplaces, rfl⟩
      exact mem_star_digit.mpr (by simp)

/-- Without a letter, the text of a double is a numeral without an exponent. -/
private theorem mem_doubleGrammar {x : List Char} (h : ∀ c ∈ x, c.isAlpha = false) :
    x ∈ doubleGrammar.matches' ↔ x ∈ (optionalSign * unsignedGrammar).matches' := by
  rw [doubleGrammar, matches'_mul, matches'_mul, Language.mem_mul, Language.mem_mul]
  constructor
  · rintro ⟨a, ha, b, hb, rfl⟩
    refine ⟨a, ha, b, ?_, rfl⟩
    have hletters : ∀ c ∈ b, c.isAlpha = false := fun c hc => h c (List.mem_append_right a hc)
    have hword : ∀ {c cs}, c.isAlpha = true → b ∉ (word (c :: cs)).matches' := by
      intro c cs hc hmem
      rw [mem_word.mp hmem] at hletters
      exact absurd (hletters c List.mem_cons_self) (by simp [hc])
    obtain ((hinf | hinfinity) | hnan) | hnumber := hb
    · exact absurd hinf (hword (by decide))
    · exact absurd hinfinity (hword (by decide))
    · exact absurd hnan (hword (by decide))
    · obtain ⟨u, hu, e, he, rfl⟩ := Language.mem_mul.mp hnumber
      obtain rfl | ⟨a, ⟨mark, hmark, sign, -, rfl⟩, ds, -, rfl⟩ := he
      · rwa [List.append_nil]
      · -- an exponent begins with a letter
        cases mem_char.mp hmark
        have hmem : 'e' ∈ u ++ (['e'] ++ sign ++ ds) := by simp
        cases hletters 'e' hmem
  · rintro ⟨a, ha, b, hb, rfl⟩
    exact ⟨a, ha, b, .inr ⟨b, hb, [], .inl rfl, List.append_nil b⟩, rfl⟩

/-! ### The search for a double -/

/-- An exponent is an integer behind a letter. -/
private theorem mem_exponentGrammar {x : List Char} :
    x ∈ exponentGrammar.matches' ↔ ∃ y, x = 'e' :: y ∧ y ∈ integerGrammar.matches' := by
  rw [exponentGrammar, matches'_mul, matches'_mul, mul_assoc, ← matches'_mul optionalSign,
    Language.mem_mul]
  constructor
  · rintro ⟨mark, hmark, y, hy, rfl⟩
    cases mem_char.mp hmark
    exact ⟨y, rfl, hy⟩
  · rintro ⟨y, rfl, hy⟩
    exact ⟨['e'], rfl, y, hy, rfl⟩

/-- The test for exponents agrees with their grammar. -/
private theorem isExponent_iff {cs : List Char} :
    isExponent cs = true ↔ cs ∈ (1 + exponentGrammar).matches' := by
  rw [matches'_add, Language.mem_add, matches'_epsilon, Language.mem_one, mem_exponentGrammar]
  fun_cases isExponent cs with
  | case1 => simp
  | case2 cs => simp [isInteger_iff]
  | case3 _ hnil he =>
    refine iff_of_false Bool.false_ne_true ?_
    rintro (h | ⟨y, h, -⟩)
    · exact hnil h
    · exact he y h

/-- Neither a digit nor a point stands at the front of an exponent. -/
private theorem span_exponent {cs : List Char} (h : isExponent cs = true) :
    cs.takeWhile Char.isDigit = [] ∧ cs.dropWhile Char.isDigit = cs ∧ ∀ rest, cs ≠ '.' :: rest := by
  revert h
  fun_cases isExponent cs with
  | case1 => exact fun _ => ⟨rfl, rfl, by simp⟩
  | case2 cs => exact fun _ => ⟨rfl, rfl, by simp⟩
  | case3 => exact fun h => absurd h Bool.false_ne_true

/-- The digits in front of a text without leading digits are found. -/
private theorem takeWhile_digits {ds cs : List Char} (hds : ∀ c ∈ ds, c.isDigit = true)
    (hcs : cs.takeWhile Char.isDigit = []) : (ds ++ cs).takeWhile Char.isDigit = ds := by
  rw [List.takeWhile_append_of_pos hds, hcs, List.append_nil]

/-- Digits with an optional exponent are a numeral. -/
private theorem isNumber_digits {ds cs : List Char} (hds : ∀ c ∈ ds, c.isDigit = true)
    (hne : ds ≠ []) (hcs : isExponent cs = true) : isNumber (ds ++ cs) = true := by
  obtain ⟨htake, hdrop, hpoint⟩ := span_exponent hcs
  rw [isNumber, takeWhile_digits hds htake, List.dropWhile_append_of_pos hds, hdrop]
  split
  · exact absurd rfl (hpoint _)
  · simp [hne, hcs]

/-- Digits around a point with an optional exponent are a numeral. -/
private theorem isNumber_pointed {whole places cs : List Char}
    (hwhole : ∀ c ∈ whole, c.isDigit = true)
    (hplaces : ∀ c ∈ places, c.isDigit = true) (hne : whole ≠ [] ∨ places ≠ [])
    (hcs : isExponent cs = true) : isNumber (whole ++ '.' :: (places ++ cs)) = true := by
  obtain ⟨htake, hdrop, -⟩ := span_exponent hcs
  have hpoint : ('.' :: (places ++ cs)).dropWhile Char.isDigit = '.' :: (places ++ cs) := rfl
  rw [isNumber, takeWhile_digits hwhole rfl, List.dropWhile_append_of_pos hwhole, hpoint]
  simp only [takeWhile_digits hplaces htake, List.dropWhile_append_of_pos hplaces, hdrop, hcs]
  simpa [or_iff_not_imp_left] using hne

/-- The search for numerals agrees with their grammar. -/
private theorem isNumber_iff {cs : List Char} :
    isNumber cs = true ↔ cs ∈ (unsignedGrammar * (1 + exponentGrammar)).matches' := by
  rw [matches'_mul, Language.mem_mul]
  constructor
  · have hcs := List.takeWhile_append_dropWhile (p := Char.isDigit) (l := cs)
    have hwhole : ∀ c ∈ cs.takeWhile Char.isDigit, c.isDigit = true :=
      fun c hc => List.mem_takeWhile_imp hc
    fun_cases isNumber cs with
    | case1 whole rest hdrop places =>
      intro h
      rw [Bool.and_eq_true] at h
      refine ⟨whole ++ '.' :: places, mem_unsignedGrammar.mpr (.inr (mem_pointed.mpr ?_)), _,
        isExponent_iff.mp h.2, ?_⟩
      · refine ⟨whole, places, rfl, hwhole, fun c hc => List.mem_takeWhile_imp hc, ?_⟩
        simpa [or_iff_not_imp_left] using h.1
      · rw [List.append_assoc, List.cons_append, List.takeWhile_append_dropWhile, ← hdrop, hcs]
    | case2 whole rest =>
      intro h
      rw [Bool.and_eq_true] at h
      refine ⟨whole, mem_unsignedGrammar.mpr (.inl (mem_digits.mpr ⟨?_, hwhole⟩)), _,
        isExponent_iff.mp h.2, hcs⟩
      simpa using h.1
  · rintro ⟨u, hu, e, he, rfl⟩
    have hexponent := isExponent_iff.mpr he
    rcases mem_unsignedGrammar.mp hu with hu | hu
    · obtain ⟨hne, hdigits⟩ := mem_digits.mp hu
      exact isNumber_digits hdigits hne hexponent
    · obtain ⟨whole, places, rfl, hwhole, hplaces, hne⟩ := mem_pointed.mp hu
      rw [List.append_assoc, List.cons_append]
      exact isNumber_pointed hwhole hplaces hne hexponent

/-- **The search for the text of a double is right by the grammar.** -/
theorem isDoubleText_eq (cs : List Char) : isDoubleText cs = matchesDouble cs := by
  rw [Bool.eq_iff_iff, matchesDouble, rmatch_iff_matches', doubleGrammar, mem_optionalSign_mul,
    isDoubleText]
  · simp only [matches'_add, Language.mem_add, mem_word, ← isNumber_iff, Bool.or_eq_true,
      List.contains_iff_mem, List.mem_cons, List.not_mem_nil, or_false, or_assoc]
    simp only [← String.toList_inj, String.toList_ofList]
  · intro y hy
    obtain ((hinf | hinfinity) | hnan) | hnumber := hy
    · rw [mem_word.mp hinf]
      decide
    · rw [mem_word.mp hinfinity]
      decide
    · rw [mem_word.mp hnan]
      decide
    · have htest := isNumber_iff.mpr hnumber
      constructor <;>
      · rintro hhead
        obtain ⟨rest, rfl⟩ := List.head?_eq_some_iff.mp hhead
        cases htest

/-! ### Decimals among the doubles -/

/-- A digit is no letter. -/
private theorem isAlpha_of_isDigit {c : Char} (h : c.isDigit = true) : c.isAlpha = false := by
  have hmem := isDigit_iff_mem.mp h
  simp only [List.mem_cons, List.not_mem_nil, or_false] at hmem
  rcases hmem with rfl | rfl | rfl | rfl | rfl | rfl | rfl | rfl | rfl | rfl <;> rfl

/-- A sign is neither a letter nor a point. -/
private theorem plain_of_mem_sign {sign : List Char} {c : Char} (h : sign ∈ optionalSign.matches')
    (hc : c ∈ sign) : c.isAlpha = false ∧ c ≠ '.' := by
  obtain rfl | rfl | rfl := mem_optionalSign.mp h
  · cases hc
  · cases List.mem_singleton.mp hc
    decide
  · cases List.mem_singleton.mp hc
    decide

/-- A point is neither a sign nor a digit. -/
private theorem point_notMem {sign ds : List Char} (hsign : sign ∈ optionalSign.matches')
    (hds : ds ∈ digits.matches') : '.' ∉ sign ++ ds := by
  intro hpoint
  rcases List.mem_append.mp hpoint with hpoint | hpoint
  · exact (plain_of_mem_sign hsign hpoint).2 rfl
  · cases (mem_digits.mp hds).2 '.' hpoint

/-- A text without letters is the same in small letters. -/
private theorem map_toLower_eq_self {cs : List Char} (h : ∀ c ∈ cs, c.isAlpha = false) :
    cs.map Char.toLower = cs := by
  refine (List.map_congr_left fun c hc => ?_).trans (List.map_id cs)
  have hletter := h c hc
  rw [Char.isAlpha, Bool.or_eq_false_iff] at hletter
  exact Char.toLower_eq_of_not_isUpper (by simp [hletter.1])

/-- Without letters, the text of a double is a numeral without an exponent. -/
private theorem matchesDouble_iff {cs : List Char} (h : ∀ c ∈ cs, c.isAlpha = false) :
    matchesDouble cs = true ↔ cs ∈ (optionalSign * unsignedGrammar).matches' := by
  rw [matchesDouble, map_toLower_eq_self h, rmatch_iff_matches', mem_doubleGrammar h]

/-- **A decimal has a point, a digit and no letter, and is the text of a double**; nothing else
is. -/
theorem isDecimal_iff_tests {cs : List Char} : isDecimal cs = true ↔
    '.' ∈ cs ∧ (∃ c ∈ cs, c.isDigit = true) ∧ matchesDouble cs = true ∧
      ∀ c ∈ cs, c.isAlpha = false := by
  rw [isDecimal_iff, decimalGrammar, matches'_mul, Language.mem_mul]
  constructor
  · rintro ⟨sign, hsign, b, hb, rfl⟩
    obtain ⟨whole, places, rfl, hwhole, hplaces, hne⟩ := mem_pointed.mp hb
    have hletters : ∀ c ∈ sign ++ (whole ++ '.' :: places), c.isAlpha = false := by
      rw [List.forall_mem_append, List.forall_mem_append, List.forall_mem_cons]
      refine ⟨fun c hc => (plain_of_mem_sign hsign hc).1, ?_, by decide, ?_⟩
      · exact fun c hc => isAlpha_of_isDigit (hwhole c hc)
      · exact fun c hc => isAlpha_of_isDigit (hplaces c hc)
    refine ⟨by simp, ?_, ?_, hletters⟩
    · rcases hne with hne | hne
      · obtain ⟨c, hc⟩ := List.exists_mem_of_ne_nil whole hne
        exact ⟨c, by simp [hc], hwhole c hc⟩
      · obtain ⟨c, hc⟩ := List.exists_mem_of_ne_nil places hne
        exact ⟨c, by simp [hc], hplaces c hc⟩
    · rw [matchesDouble_iff hletters]
      exact ⟨sign, hsign, _, mem_unsignedGrammar.mpr (.inr hb), rfl⟩
  · rintro ⟨hpoint, -, htext, hletters⟩
    obtain ⟨sign, hsign, b, hb, rfl⟩ := (matchesDouble_iff hletters).mp htext
    refine ⟨sign, hsign, b, (mem_unsignedGrammar.mp hb).resolve_left fun hdigits => ?_, rfl⟩
    exact point_notMem hsign hdigits hpoint

end Numeral

/-- The kind of an atom without a hash, by one test of its text after the other. -/
def atomKindByTests (cs : List Char) : AtomKind :=
  let unsigned := (Numeral.splitSign cs).2
  if !unsigned.isEmpty && unsigned.all Char.isDigit then .integer
  else if cs.contains '.' && cs.any Char.isDigit && Numeral.matchesDouble cs &&
    !cs.any Char.isAlpha then .decimal
  else .identifier

/-- The tests of the text one after the other find the class of an atom. -/
private theorem atomKindByTests_eq (cs : List Char) : atomKindByTests cs = classifyAtom cs := by
  rw [atomKindByTests, classifyAtom, Numeral.isDoubleText_eq]
  rfl

/-- After the test for an integer, the tests come to the one for a decimal. -/
private theorem classifyAtom_eq (cs : List Char) : classifyAtom cs =
    if Numeral.isInteger cs then .integer else if Numeral.isDecimal cs then .decimal
    else .identifier := by
  have htests : (cs.contains '.' && cs.any Char.isDigit && Numeral.isDoubleText cs &&
      !cs.any Char.isAlpha) = Numeral.isDecimal cs := by
    rw [Bool.eq_iff_iff, Numeral.isDecimal_iff_tests, Numeral.isDoubleText_eq]
    simp [and_assoc]
  rw [classifyAtom, htests]

/-! ### Values -/

namespace Numeral

/-- The number that digits make in base ten, of which the last one counts the ones. -/
def baseTen (ds : List Char) : Nat :=
  Nat.ofDigits 10 (ds.reverse.map fun d => d.toNat - '0'.toNat)

/-- What an integer numeral stands for: the number that its digits make, with the sign in front of
them. -/
inductive Denotes : List Char → Int → Prop
  | unsigned {ds : List Char} (h : ds ∈ digits.matches') : Denotes ds (baseTen ds)
  | plus {ds : List Char} (h : ds ∈ digits.matches') : Denotes ('+' :: ds) (baseTen ds)
  | minus {ds : List Char} (h : ds ∈ digits.matches') : Denotes ('-' :: ds) (-(baseTen ds : Int))

/-- Digits are read in base ten. -/
private theorem digitsValue_eq (ds : List Char) : digitsValue ds = baseTen ds := by
  rw [digitsValue, baseTen]
  induction ds using List.reverseRecOn with
  | nil => rfl
  | append_singleton ds d ih =>
    rw [List.foldl_append, List.foldl_cons, List.foldl_nil, ih, List.reverse_append,
      List.reverse_singleton, List.singleton_append, List.map_cons, Nat.ofDigits_cons]
    exact Nat.add_comm _ _

/-- An integer is read as the number it denotes. -/
private theorem denotes_integerValue {cs : List Char} (h : isInteger cs = true) :
    Denotes cs (integerValue cs) := by
  have hdigits : (splitSign cs).2 ∈ digits.matches' := by
    rw [mem_digits]
    simpa [isInteger] using h
  revert hdigits
  rw [integerValue]
  fun_cases splitSign cs with
  | case1 cs =>
    simp only [digitsValue_eq, if_true]
    exact .minus
  | case2 cs =>
    simp only [digitsValue_eq, Bool.false_eq_true, if_false]
    exact .plus
  | case3 =>
    simp only [digitsValue_eq, Bool.false_eq_true, if_false]
    exact .unsigned

/-- A numeral has a word exactly when its value is in the range of words. -/
private theorem word?_eq (cs : List Char) :
    word? cs = if -(2 ^ 63) ≤ integerValue cs ∧ integerValue cs ≤ 2 ^ 63 - 1 then
      some (Int64.ofInt (integerValue cs)) else none := by
  have hmin : Int64.minValue.toInt = -(2 ^ 63) := Int64.toInt_minValue
  have hmax : Int64.maxValue.toInt = 2 ^ 63 - 1 := Int64.toInt_maxValue
  simp only [word?, hmin, hmax, Bool.and_eq_true, decide_eq_true_eq]

/-- What comes of an integer token: the word with its value, or an error with its text and place if
no word has that value. -/
def ReadsAs (t : Token) (value : Int) (result : Except ReadError Expr) : Prop :=
  (-(2 ^ 63) ≤ value ∧ value ≤ 2 ^ 63 - 1 →
    ∃ w : Int64, w.toInt = value ∧ result = .ok (.literal (.integer w))) ∧
  (¬(-(2 ^ 63) ≤ value ∧ value ≤ 2 ^ 63 - 1) → result = .error ⟨.invalidAtom t.text, t.span⟩)

/-- An integer token becomes the word of its value, or an error. -/
private theorem readsAs_toExpr (t : Token) : ReadsAs t (integerValue t.text.toList)
    (Datum.atom .integer t.text t.span).toExpr := by
  constructor
  · intro h
    refine ⟨.ofInt (integerValue t.text.toList), Int64.toInt_ofInt_of_le h.1 (by omega), ?_⟩
    rw [Datum.toExpr, atomExpr, word?_eq, if_pos h]
    rfl
  · intro h
    rw [Datum.toExpr, atomExpr, word?_eq, if_neg h]
    rfl

end Numeral

/-! ### Atoms of a text -/

/-- A run of characters that no delimiter interrupts, up to a delimiter or the end of the text. -/
structure MaximalRun (run after : List Char) : Prop where
  nonempty : run ≠ []
  plain : ∀ c ∈ run, isDelimiter c = false
  ends : ∀ c ∈ after.head?, isDelimiter c = true

/-- The kind of an atom is told by the grammars, and by one test of its text after the other. -/
structure AtomKind.Fits (kind : AtomKind) (run : List Char) : Prop where
  integer : kind = .integer ↔ run ∈ Numeral.integerGrammar.matches'
  decimal : kind = .decimal ↔ run ∈ Numeral.decimalGrammar.matches'
  identifier : kind = .identifier ↔
    run ∉ Numeral.integerGrammar.matches' ∧ run ∉ Numeral.decimalGrammar.matches'
  tests : kind = atomKindByTests run

/-- **The class of an atom is told by the grammars of numerals.** -/
theorem classifyAtom_fits (cs : List Char) : (classifyAtom cs).Fits cs := by
  have hboth : Numeral.isInteger cs = true → ¬Numeral.isDecimal cs = true := by
    intro hint hdec
    obtain ⟨sign, hsign, ds, hds, rfl⟩ := Language.mem_mul.mp (Numeral.isInteger_iff.mp hint)
    exact Numeral.point_notMem hsign hds (Numeral.isDecimal_iff_tests.mp hdec).1
  refine ⟨?_, ?_, ?_, (atomKindByTests_eq cs).symm⟩
  · rw [← Numeral.isInteger_iff, classifyAtom_eq]
    split_ifs with hint hdec <;> simp [hint]
  · rw [← Numeral.isDecimal_iff, classifyAtom_eq]
    split_ifs with hint hdec <;> simp_all
  · rw [← Numeral.isInteger_iff, ← Numeral.isDecimal_iff, classifyAtom_eq]
    split_ifs with hint hdec <;> simp_all

/-- A maximal run of characters that does not begin with a hash is one atom. -/
theorem scan_maximalRun {run after : List Char} (h : MaximalRun run after)
    (hhash : run.head? ≠ some '#') :
    scan (run ++ after) = some ⟨.ok (.atom (classifyAtom run)), run, after⟩ := by
  obtain ⟨c, cs, rfl⟩ := List.exists_cons_of_ne_nil h.nonempty
  obtain ⟨hc, hcs⟩ := List.forall_mem_cons.mp h.plain
  have hmarks : c ∉ marks := by
    simp only [marks, List.mem_cons, List.not_mem_nil, or_false]
    rintro (rfl | rfl | rfl | rfl | rfl)
    · exact absurd hc (by decide)
    · exact absurd hc (by decide)
    · exact absurd hc (by decide)
    · exact absurd hc (by decide)
    · exact hhash rfl
  have hends : Ends after := fun c cs heq => h.ends c (by rw [heq]; rfl)
  rw [List.cons_append, scan_of_notMem_marks hmarks, atomRun_append_of_ends cs hcs hends]

/-- No token that begins with a hash is an integer. -/
private theorem scanHash_ne_integer (cs : List Char) :
    (scanHash cs).outcome ≠ .ok (.atom .integer) := by
  fun_cases scanHash cs with
  | case4 cs _ _ _ run rest hrun text => split_ifs <;> simp
  | _ => simp

/-- Only an integer numeral is taken as an integer. -/
private theorem isInteger_of_scan {cs taken rest : List Char}
    (h : scan cs = some ⟨.ok (.atom .integer), taken, rest⟩) : Numeral.isInteger taken = true := by
  revert h
  fun_cases scan cs with
  | case7 cs =>
    intro h
    have houtcome := congrArg Scanned.outcome (Option.some.inj h)
    exact absurd houtcome (scanHash_ne_integer cs)
  | case8 c cs _ _ _ _ _ run rest' hrun =>
    intro h
    simp only [Option.some.injEq, Scanned.mk.injEq, Except.ok.injEq, TokenKind.atom.injEq] at h
    obtain ⟨hkind, rfl, -⟩ := h
    exact Numeral.isInteger_iff.mpr ((classifyAtom_fits (c :: run)).integer.mp hkind)
  | _ => simp

/-! ### Answers -/

namespace Cursor

variable {s : Source} {c d : Cursor}

/-- Blanks and comments are skipped within the text. -/
private theorem Within.skip (h : c.Within s) : c.skip.Within s :=
  (within_skipFrom false c.offset c.rest h).1

/-- The next token is read within the text. -/
theorem Within.behind (h : c.Within s) : c.next.2.Within s := by
  obtain ⟨hnext, -⟩ | ⟨r, taken, rest, hnext, -, hrest, -⟩ := c.next_cases
  · rw [hnext]
    exact h.skip
  · rw [hnext]
    exact Within.over (hrest ▸ h.skip)

/-- Every answer of the lexer is the next token at some place within the text. -/
theorem exists_of_answer (h : c.Within s) {n : Nat} {r : Except ReadError Token}
    (hr : Lexer.answer ⟨c, none⟩ n = some r) : ∃ d : Cursor, d.Within s ∧ d.next.1 = some r := by
  induction n generalizing c with
  | zero => exact ⟨c, h, hr⟩
  | succ n ih => exact ih h.behind hr

end Cursor

/-- Two splits of a text at the same offset are the same. -/
private theorem append_inj_of_byteLength {as bs cs ds : List Char} (h : as ++ bs = cs ++ ds)
    (hlength : byteLength as = byteLength cs) : as = cs ∧ bs = ds := by
  have hcut := cutAt?_append as bs
  rw [h, hlength, cutAt?_append] at hcut
  obtain ⟨has, hbs⟩ := Prod.mk.inj (Option.some.inj hcut)
  exact ⟨has.symm, hbs.symm⟩

/-- How the atoms of a text without a hash are told apart and integers are read. -/
structure Source.AtomsExact (s : Source) : Prop where
  /-- A run at which a token starts is that token. -/
  classified : ∀ before run after n r, s.chars = before ++ run ++ after → MaximalRun run after →
    run.head? ≠ some '#' → (Lexer.ofText s.text).answer n = some r →
    (answerSpan r).start = byteLength before → ∃ kind : AtomKind, kind.Fits run ∧
      r = .ok ⟨.atom kind, String.ofList run, ⟨byteLength before, byteLength (before ++ run)⟩⟩
  /-- An integer token is read as its exact value. -/
  integers : ∀ n t, (Lexer.ofText s.text).answer n = some (.ok t) → t.kind = .atom .integer →
    ∃ value, Numeral.Denotes t.text.toList value ∧
      Numeral.ReadsAs t value (Datum.atom .integer t.text t.span).toExpr
  /-- A program of one integer is read so. -/
  program : ∀ t stop, TokenStream.ofText s.text = ⟨[t], .finished stop⟩ →
    t.kind = .atom .integer →
    readProgram s.text = (Datum.atom .integer t.text t.span).toExpr.map fun e => [e]

/-- An answer that starts at a maximal run is the atom of that run. -/
private theorem answer_of_maximalRun {s : Source} {before run after : List Char} {n : Nat}
    {r : Except ReadError Token} (hchars : s.chars = before ++ run ++ after)
    (hrun : MaximalRun run after) (hhash : run.head? ≠ some '#')
    (hr : (Lexer.ofText s.text).answer n = some r)
    (hstart : (answerSpan r).start = byteLength before) :
    r = .ok ⟨.atom (classifyAtom run), String.ofList run,
      ⟨byteLength before, byteLength (before ++ run)⟩⟩ := by
  obtain ⟨c, hc, hnext⟩ := Cursor.exists_of_answer (Cursor.within_start s) hr
  obtain ⟨pre, hpre, hoffset⟩ := hc.skip
  -- the call is made at the start of the run
  have hplace : c.skip.offset = byteLength before := by
    obtain ⟨hnone, -⟩ | ⟨r', taken, rest, hsome, -, -, hspan⟩ := c.next_cases
    · rw [hnone] at hnext
      cases hnext
    · rw [hsome] at hnext
      cases hnext
      rw [← hstart, hspan]
  have hrest : c.skip.rest = run ++ after := by
    rw [hchars, List.append_assoc] at hpre
    exact (append_inj_of_byteLength hpre.symm (hoffset.trans hplace)).2
  rw [Cursor.next] at hnext
  simp only [hrest, scan_maximalRun hrun hhash, hplace] at hnext
  rw [byteLength_append]
  exact (Option.some.inj hnext).symm

/-- The text of an integer token is an integer. -/
private theorem isInteger_of_answer {s : Source} {n : Nat} {t : Token}
    (h : (Lexer.ofText s.text).answer n = some (.ok t)) (hkind : t.kind = .atom .integer) :
    Numeral.isInteger t.text.toList = true := by
  obtain ⟨c, -, hnext⟩ := Cursor.exists_of_answer (Cursor.within_start s) h
  obtain ⟨rest, hscan⟩ := exists_scan_of_next (d := c.next.2) (Prod.ext hnext rfl)
  rw [hkind] at hscan
  exact isInteger_of_scan hscan

/-- **Atoms are told apart by exact grammars and integers are read exactly**, at any length and with
any number of zeros in front. -/
theorem atoms_exact (s : Source) : s.AtomsExact where
  classified before run after n r hchars hrun hhash hr hstart :=
    ⟨classifyAtom run, classifyAtom_fits run,
      answer_of_maximalRun hchars hrun hhash hr hstart⟩
  integers n t hr hkind :=
    ⟨_, Numeral.denotes_integerValue (isInteger_of_answer hr hkind), Numeral.readsAs_toExpr t⟩
  program t stop hstream hkind := by
    have hdata : assembleFrom (.finished stop) [] [t] =
        ([.atom .integer t.text t.span], none) := by
      rw [assembleFrom.eq_def]
      simp only [hkind]
      rfl
    rw [readProgram, hstream, TokenStream.assemble, hdata]
    cases hexpr : (Datum.atom .integer t.text t.span).toExpr with
    | ok e => simp only [toExprs, hexpr]; rfl
    | error e => simp only [toExprs, hexpr]; rfl

/-- A vector with a decimal, the least word with a zero in front, and the number behind the greatest
word. -/
def extremeNumerals : Source :=
  .ofText "#(+.5 -09223372036854775808 9223372036854775808)"

theorem atoms_exact_extremes : ∃ (kind : AtomKind) (low high : Token) (v w : Int),
    MaximalRun "+.5".toList " -09223372036854775808 9223372036854775808)".toList ∧
    (Lexer.ofText extremeNumerals.text).answer 1 =
      some (.ok ⟨.atom kind, "+.5", ⟨2, 5⟩⟩) ∧ kind.Fits "+.5".toList ∧
    (Lexer.ofText extremeNumerals.text).answer 2 = some (.ok low) ∧
    (Lexer.ofText extremeNumerals.text).answer 3 = some (.ok high) ∧
    Numeral.Denotes low.text.toList v ∧
    Numeral.ReadsAs low v (.ok (.literal (.integer Int64.minValue))) ∧
    Numeral.Denotes high.text.toList w ∧
    Numeral.ReadsAs high w (.error ⟨.invalidAtom "9223372036854775808", ⟨28, 47⟩⟩) := by
  have hrun : MaximalRun "+.5".toList " -09223372036854775808 9223372036854775808)".toList :=
    ⟨by decide, by simp [isDelimiter], by simp [isDelimiter]⟩
  have hanswer : (Lexer.ofText extremeNumerals.text).answer 1 =
      some (.ok ⟨.atom .decimal, "+.5", ⟨2, 5⟩⟩) := by cbv
  have hlow : (Lexer.ofText extremeNumerals.text).answer 2 =
      some (.ok ⟨.atom .integer, "-09223372036854775808", ⟨6, 27⟩⟩) := by cbv
  have hhigh : (Lexer.ofText extremeNumerals.text).answer 3 =
      some (.ok ⟨.atom .integer, "9223372036854775808", ⟨28, 47⟩⟩) := by cbv
  obtain ⟨kind, hfits, hkind⟩ := (atoms_exact extremeNumerals).classified "#(".toList "+.5".toList
    _ 1 _ (by decide) hrun (by decide) hanswer rfl
  obtain ⟨v, hv, hvreads⟩ := (atoms_exact extremeNumerals).integers 2 _ hlow rfl
  obtain ⟨w, hw, hwreads⟩ := (atoms_exact extremeNumerals).integers 3 _ hhigh rfl
  exact ⟨kind, _, _, v, w, hrun, hanswer.trans (congrArg some hkind), hfits, hlow, hhigh, hv,
    hvreads, hw, hwreads⟩

end WordScheme
