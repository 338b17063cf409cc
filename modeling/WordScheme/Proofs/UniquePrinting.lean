import Mathlib
import WordScheme.Proofs.PrintedNames

/-!
# What is printed can be told apart

Types, parameters, blocks and definitions end in the text without a mark of their own, so one could
go on where another ends. For types this happens: `i64` is printed in front of ` (i64)` also as the
result of a function type. `Ty.overlaps_of_append` says that it happens in no other way, whatever
names the types mention, so where no parameters can follow the types are the same. With it
everything that is printed with a name gives the name away, in colours and without.
`printing_decodable` puts this together with the bytes of string constants.
-/

namespace WordScheme

/-! ### Types -/

/-- A numeral ends where a text begins that goes on with no digit. -/
private theorem toString_append_inj {m n : Nat} {x y : List Char}
    (hx : ∀ c ∈ x.head?, c.isDigit = false) (hy : ∀ c ∈ y.head?, c.isDigit = false)
    (h : (toString m).toList ++ x = (toString n).toList ++ y) : m = n ∧ x = y := by
  have hdigits : ∀ k : Nat, ∀ c ∈ (toString k).toList, c.isDigit = true := by
    intro k c hc
    rw [Nat.toString_eq_repr, Nat.toList_repr] at hc
    exact Nat.isDigit_of_mem_toDigits (by decide) (by decide) hc
  obtain ⟨htake, hdrop⟩ := takeWhile_append_of_ends (hdigits m) hx
  obtain ⟨htake', hdrop'⟩ := takeWhile_append_of_ends (hdigits n) hy
  rw [h] at htake hdrop
  have hchars := htake.symm.trans htake'
  exact ⟨Nat.repr_injective (String.toList_inj.mp hchars), hdrop.symm.trans hdrop'⟩

namespace Ty

/-- The parameters of a function type as they are printed. -/
def paramChars (ps : List Ty) : List Char :=
  (", ".intercalate (texts ps)).toList

/-- A type as the result of function types, one around the other. -/
def applied (t : Ty) (pss : List (List Ty)) : Ty :=
  pss.foldl .function t

/-- What these function types are printed with behind their result. -/
def callChars (pss : List (List Ty)) : List Char :=
  pss.flatMap fun ps => [' ', '('] ++ paramChars ps ++ [')']

private theorem callChars_cons (ps : List Ty) (pss : List (List Ty)) (x : List Char) :
    callChars (ps :: pss) ++ x = ' ' :: '(' :: (paramChars ps ++ ')' :: (callChars pss ++ x)) := by
  simp [callChars]

@[simp]
theorem toList_text_function (t : Ty) (ps : List Ty) :
    (function t ps).text.toList = t.text.toList ++ ([' ', '('] ++ paramChars ps ++ [')']) := by
  simp [text, paramChars]

@[simp]
theorem toList_text_array (t : Ty) (n : Nat) : (array t n).text.toList =
    '[' :: ((toString n).toList ++ ([' ', 'x', ' '] ++ (t.text.toList ++ [']']))) := by
  simp [text]

@[simp]
theorem toList_text_named (name : Name) :
    (named name).text.toList = '%' :: (quotedName name).toList := by
  simp [text, sigilName]

/-- Function types around a type are printed behind it. -/
private theorem toList_text_applied (t : Ty) (pss : List (List Ty)) :
    (t.applied pss).text.toList = t.text.toList ++ callChars pss := by
  induction pss generalizing t with
  | nil => simp [applied, callChars]
  | cons ps pss ih =>
    change ((function t ps).applied pss).text.toList = _
    rw [ih, toList_text_function, List.append_assoc]
    rfl

/-- Not a function type. -/
def isBase : Ty → Bool
  | .function _ _ => false
  | _ => true

/-- Every type is a base type, with function types around it. -/
private theorem exists_applied : (t : Ty) →
    ∃ (b : Ty) (pss : List (List Ty)), b.isBase = true ∧ t = b.applied pss
  | .function r ps => by
    obtain ⟨b, pss, hb, hr⟩ := exists_applied r
    refine ⟨b, pss ++ [ps], hb, ?_⟩
    rw [applied, List.foldl_append, hr]
    rfl
  | .int w => ⟨.int w, [], rfl, rfl⟩
  | .double => ⟨.double, [], rfl, rfl⟩
  | .ptr => ⟨.ptr, [], rfl, rfl⟩
  | .array e n => ⟨.array e n, [], rfl, rfl⟩
  | .named name => ⟨.named name, [], rfl, rfl⟩
  | .void => ⟨.void, [], rfl, rfl⟩

/-- Two types in front of texts, the same together: one type goes on where the other ends. -/
inductive Overlaps (s t : Ty) (x y : List Char) : Prop
  | left (pss : List (List Ty)) (ht : t = s.applied pss) (hx : x = callChars pss ++ y)
  | right (pss : List (List Ty)) (hs : s = t.applied pss) (hy : y = callChars pss ++ x)

/-- Where neither text goes on with parameters, the types are the same. -/
private theorem Overlaps.eq {s t : Ty} {x y : List Char} (h : Overlaps s t x y)
    (hx : ∀ z, x ≠ ' ' :: '(' :: z) (hy : ∀ z, y ≠ ' ' :: '(' :: z) : s = t ∧ x = y := by
  cases h with
  | left pss ht heq =>
    cases pss with
    | nil => exact ⟨ht.symm, heq⟩
    | cons ps pss => exact absurd (heq.trans (callChars_cons ps pss y)) (hx _)
  | right pss hs heq =>
    cases pss with
    | nil => exact ⟨hs, heq.symm⟩
    | cons ps pss => exact absurd (heq.trans (callChars_cons ps pss x)) (hy _)

/-- The character that a type begins with. -/
def initial : Ty → Char
  | .int _ => 'i'
  | .double => 'd'
  | .ptr => 'p'
  | .array _ _ => '['
  | .named _ => '%'
  | .function result _ => result.initial
  | .void => 'v'

/-- The text of a type begins with its initial. -/
private theorem head?_text :
    (t : Ty) → (x : List Char) → (t.text.toList ++ x).head? = some t.initial
  | .int w, x => by cases w <;> rfl
  | .double, x => rfl
  | .ptr, x => rfl
  | .array e n, x => by rw [toList_text_array]; rfl
  | .named name, x => by rw [toList_text_named]; rfl
  | .function r ps, x => by rw [toList_text_function, List.append_assoc, head?_text r]; rfl
  | .void, x => rfl

private theorem initial_ne : (t : Ty) → t.initial ≠ ')'
  | .function r _ => initial_ne r
  | .int _ | .double | .ptr | .array _ _ | .named _ | .void => by simp [initial]

/-- A type that is no function type is told by its first character, and by its numeral, name or
element. -/
private theorem base_append {s t : Ty} (hs : s.isBase = true) (ht : t.isBase = true)
    {x y : List Char} (hx : Breaks x) (hy : Breaks y)
    (helement : ∀ e n, s = .array e n → ∀ {t : Ty} {x y : List Char}, Breaks x → Breaks y →
      e.text.toList ++ x = t.text.toList ++ y → Overlaps e t x y)
    (h : s.text.toList ++ x = t.text.toList ++ y) : s = t ∧ x = y := by
  have hinitial : s.initial = t.initial := by
    have hhead := congrArg List.head? h
    rw [head?_text, head?_text] at hhead
    exact Option.some.inj hhead
  cases s with
  | function r ps => cases hs
  | named a =>
    cases t with
    | named b =>
      rw [toList_text_named, toList_text_named, List.cons_append, List.cons_append] at h
      obtain ⟨rfl, hrest⟩ := quotedName_append_inj hx hy (List.cons.inj h).2
      exact ⟨rfl, hrest⟩
    | function r ps => cases ht
    | _ => simp [initial] at hinitial
  | array e n =>
    cases t with
    | array e' n' =>
      simp only [toList_text_array, List.cons_append, List.append_assoc, List.cons.injEq,
        true_and] at h
      obtain ⟨rfl, hrest⟩ := toString_append_inj (by simp) (by simp) h
      have hbracket : ∀ z, Breaks (']' :: z) := breaks_cons (by decide)
      simp only [List.cons.injEq, true_and, List.nil_append] at hrest
      obtain ⟨rfl, hxy⟩ := (helement e n rfl (hbracket x) (hbracket y) hrest).eq (by simp) (by simp)
      exact ⟨rfl, (List.cons.inj hxy).2⟩
    | function r ps => cases ht
    | _ => simp [initial] at hinitial
  | int v =>
    cases t with
    | int w => cases v <;> cases w <;> simp_all [text, Width.text]
    | function r ps => cases ht
    | _ => simp [initial] at hinitial
  | _ =>
    -- The types without parts: each is the only one with its first character.
    cases t with
    | function r ps => cases ht
    | _ => simp_all [initial]

/-- What stands between the first of several parameters and their closing parenthesis. -/
def furtherChars : List Ty → List Char
  | [] => []
  | p :: ps => [',', ' '] ++ paramChars (p :: ps)

private theorem paramChars_cons (p : Ty) (ps : List Ty) :
    paramChars (p :: ps) = p.text.toList ++ furtherChars ps := by
  cases ps with
  | nil => simp [paramChars, texts, furtherChars]
  | cons q ps =>
    rw [paramChars, texts, texts, String.intercalate_cons_cons]
    simp [furtherChars, paramChars, texts]

/-- No name goes on behind a parameter. -/
private theorem breaks_furtherChars (ps : List Ty) (x : List Char) :
    Breaks (furtherChars ps ++ ')' :: x) := by
  cases ps with
  | nil => exact breaks_cons (by decide) x
  | cons p ps => exact breaks_cons (by decide) _

private theorem breaks_callChars (pss : List (List Ty)) {x : List Char} (hx : Breaks x) :
    Breaks (callChars pss ++ x) := by
  cases pss with
  | nil => exact hx
  | cons ps pss =>
    rw [callChars_cons]
    exact breaks_cons (by decide) _

/-- The overlaps of a base type, given those of its elements if it is an array. -/
private theorem overlaps_of_isBase {s t : Ty} (hs : s.isBase = true) {x y : List Char}
    (hx : Breaks x) (hy : Breaks y)
    (helement : ∀ e n, s = .array e n → ∀ {t : Ty} {x y : List Char}, Breaks x → Breaks y →
      e.text.toList ++ x = t.text.toList ++ y → Overlaps e t x y)
    (h : s.text.toList ++ x = t.text.toList ++ y) : Overlaps s t x y := by
  obtain ⟨b, pss, hb, rfl⟩ := exists_applied t
  rw [toList_text_applied, List.append_assoc] at h
  obtain ⟨rfl, hcall⟩ := base_append hs hb hx (breaks_callChars pss hy) helement h
  exact .left pss rfl hcall

mutual

/-- **Types can be told apart in any surroundings**, up to function types that go on behind them. -/
theorem overlaps_of_append : (s : Ty) → {t : Ty} → {x y : List Char} → Breaks x → Breaks y →
    s.text.toList ++ x = t.text.toList ++ y → Overlaps s t x y
  | .function r ps, t, x, y, hx, hy, h => by
    have hcall : (function r ps).text.toList ++ x = r.text.toList ++ (callChars [ps] ++ x) := by
      rw [toList_text_function, List.append_assoc, callChars, List.flatMap_singleton]
    rw [hcall] at h
    cases overlaps_of_append r (breaks_callChars [ps] hx) hy h with
    | left pss ht heq =>
      cases pss with
      | nil => exact .right [ps] (by rw [ht]; rfl) heq.symm
      | cons qs pss =>
        rw [callChars_cons, callChars_cons] at heq
        obtain ⟨rfl, hrest⟩ := paramChars_append ps (List.cons.inj (List.cons.inj heq).2).2
        exact .left pss ht hrest
    | right pss hr heq =>
      refine .right (pss ++ [ps]) ?_ ?_
      · rw [hr, applied, applied, List.foldl_append]
        rfl
      · rw [heq, callChars, callChars, callChars, List.flatMap_append, List.append_assoc]
  | .array e n, _, _, _, hx, hy, h =>
    overlaps_of_isBase rfl hx hy (by rintro _ _ ⟨⟩; exact overlaps_of_append e) h
  | .int w, _, _, _, hx, hy, h => overlaps_of_isBase rfl hx hy (by rintro _ _ ⟨⟩) h
  | .double, _, _, _, hx, hy, h => overlaps_of_isBase rfl hx hy (by rintro _ _ ⟨⟩) h
  | .ptr, _, _, _, hx, hy, h => overlaps_of_isBase rfl hx hy (by rintro _ _ ⟨⟩) h
  | .named a, _, _, _, hx, hy, h => overlaps_of_isBase rfl hx hy (by rintro _ _ ⟨⟩) h
  | .void, _, _, _, hx, hy, h => overlaps_of_isBase rfl hx hy (by rintro _ _ ⟨⟩) h

/-- Parameters up to their closing parenthesis can be told apart. -/
private theorem paramChars_append : (ps : List Ty) → {qs : List Ty} → {x y : List Char} →
    paramChars ps ++ ')' :: x = paramChars qs ++ ')' :: y → ps = qs ∧ x = y
  | [], [], x, y, h => ⟨rfl, (List.cons.inj h).2⟩
  | [], q :: qs, x, y, h => by
    rw [paramChars_cons, List.append_assoc] at h
    exact absurd (Option.some.inj ((head?_text q _).symm.trans (congrArg List.head? h.symm)))
      (initial_ne q)
  | p :: ps, [], x, y, h => by
    rw [paramChars_cons, List.append_assoc] at h
    exact absurd (Option.some.inj ((head?_text p _).symm.trans (congrArg List.head? h)))
      (initial_ne p)
  | p :: ps, q :: qs, x, y, h => by
    rw [paramChars_cons, paramChars_cons, List.append_assoc, List.append_assoc] at h
    have hnoCall : ∀ (rs : List Ty) (z w : List Char),
        furtherChars rs ++ ')' :: z ≠ ' ' :: '(' :: w := by
      intro rs z w
      cases rs <;> simp [furtherChars]
    obtain ⟨rfl, hrest⟩ := (overlaps_of_append p (breaks_furtherChars ps x)
      (breaks_furtherChars qs y) h).eq (hnoCall ps x) (hnoCall qs y)
    match ps, qs, hrest with
    | [], [], hrest => exact ⟨rfl, (List.cons.inj hrest).2⟩
    | p' :: ps, q' :: qs, hrest =>
      obtain ⟨hps, hxy⟩ := paramChars_append (p' :: ps) (List.cons.inj (List.cons.inj hrest).2).2
      exact ⟨by rw [hps], hxy⟩

end

/-- A type, and what stands behind it after a space, can be told from the two together. -/
private theorem text_space_inj {s t : Ty} {c d : Char} {x y : List Char}
    (hc : c ≠ '(') (hd : d ≠ '(')
    (h : s.text.toList ++ ' ' :: c :: x = t.text.toList ++ ' ' :: d :: y) :
    s = t ∧ c :: x = d :: y := by
  have hspace : ∀ z, Breaks (' ' :: z) := breaks_cons (by decide)
  obtain ⟨rfl, hrest⟩ :=
    (overlaps_of_append s (hspace _) (hspace _) h).eq (by simp [hc]) (by simp [hd])
  exact ⟨rfl, (List.cons.inj hrest).2⟩

/-- **Types are printed differently.** -/
private theorem text_injective : Function.Injective text := by
  intro s t h
  exact ((overlaps_of_append s breaks_nil breaks_nil (by rw [h])).eq (by simp) (by simp)).1

end Ty

/-! ### Pieces of a module -/

namespace Styled

private theorem plain_append (s t : Styled) :
    Styled.plain (s ++ t) = s.plain ++ t.plain := by
  simp [plain]

private theorem plain_raw (text : String) : (raw text).plain = text := by
  simp [plain, raw]

private theorem plain_paint (colour : Colour) (text : String) :
    (colour.paint text).plain = text := by
  simp [plain, Colour.paint]

/-- Clean texts that are shown the same are the same, in colours or without. -/
private theorem plain_eq_of_shown {s t : Styled} (hs : s.allClean = true) (ht : t.allClean = true)
    {colours : Bool} (h : s.shown colours = t.shown colours) : s.plain = t.plain := by
  cases colours with
  | false => exact h
  | true => rw [← strip_ansi hs, ← strip_ansi ht]; exact congrArg strip h

end Styled

open Styled

/-- A name in a colour and behind a sigil is told by what is shown of it. -/
theorem shown_sigilName_injective (colour : Colour) {sigil : String}
    (hsigil : isClean sigil.toList = true) (colours : Bool) :
    Function.Injective fun name => (colour.paint (sigilName sigil name)).shown colours := by
  intro a b h
  have hclean : ∀ name, (colour.paint (sigilName sigil name)).allClean = true := by
    intro name
    rw [allClean_paint, isClean_sigilName, hsigil]
  have hplain := plain_eq_of_shown (hclean a) (hclean b) h
  rw [plain_paint, plain_paint] at hplain
  exact sigilName_injective sigil hplain

/-- A block gives its label away. -/
private theorem Block.label_eq_of_shown {b c : Block} {colours : Bool}
    (h : b.text.shown colours = c.text.shown colours) : b.label = c.label := by
  have hplain := congrArg String.toList (plain_eq_of_shown b.allClean_text c.allClean_text h)
  have hcolon : ∀ z, Breaks (':' :: z) := breaks_cons (by decide)
  simp only [text, plain_append, plain_paint, String.toList_append, List.append_assoc] at hplain
  exact (quotedName_append_inj (hcolon _) (hcolon _) hplain).1

/-- A parameter gives itself away. -/
private theorem Param.eq_of_shown {p q : Param} {colours : Bool}
    (h : p.text.shown colours = q.text.shown colours) : p = q := by
  have hplain := congrArg String.toList (plain_eq_of_shown p.allClean_text q.allClean_text h)
  simp only [text, paramText, plain_append, plain_raw, plain_paint, sigilName, String.toList_append,
    List.append_assoc] at hplain
  obtain ⟨hty, hrest⟩ := Ty.text_space_inj (by decide) (by decide) hplain
  have hname := quotedName_injective (String.toList_inj.mp (List.cons.inj hrest).2)
  rw [String.append_right_inj] at hname
  cases p
  cases q
  cases hty
  cases hname
  rfl

/-- What a definition is printed with in front of its name. -/
inductive Front where
  | symbol
  | typeName
  | declared (result : Ty)
  | defined (result : Ty)

namespace Front

/-- The text in front of a name, its sigil among it. -/
def text : Front → String
  | .symbol => "@"
  | .typeName => "%"
  | .declared result => "declare" ++ " " ++ result.text ++ " " ++ "@"
  | .defined result => "define" ++ " " ++ result.text ++ " " ++ "@"

/-- A keyword, a type and the sigil of a global in front of a text. -/
private theorem text_keyword_inj {keyword : String} {s t : Ty} {x y : List Char}
    (h : (keyword ++ " " ++ s.text ++ " " ++ "@").toList ++ x =
      (keyword ++ " " ++ t.text ++ " " ++ "@").toList ++ y) : s = t ∧ x = y := by
  simp only [String.toList_append, List.append_assoc, List.append_cancel_left_eq] at h
  obtain ⟨rfl, hrest⟩ := Ty.text_space_inj (by decide) (by decide) h
  exact ⟨rfl, (List.cons.inj hrest).2⟩

/-- What stands in front of a name can be told apart from the name. -/
private theorem text_append_inj {p q : Front} {x y : List Char}
    (h : p.text.toList ++ x = q.text.toList ++ y) : p = q ∧ x = y := by
  cases p with
  | declared s =>
    cases q with
    | declared t =>
      obtain ⟨rfl, hrest⟩ := text_keyword_inj h
      exact ⟨rfl, hrest⟩
    | _ => simp [text] at h
  | defined s =>
    cases q with
    | defined t =>
      obtain ⟨rfl, hrest⟩ := text_keyword_inj h
      exact ⟨rfl, hrest⟩
    | _ => simp [text] at h
  | symbol => cases q <;> simp_all [text]
  | typeName => cases q <;> simp_all [text]

end Front

namespace Definition

/-- What this definition is printed with in front of its name. -/
def front : Definition → Front
  | .globalVariable _ _ _ => .symbol
  | .function f => if f.isPlaceholder then .declared f.result else .defined f.result
  | .external _ result _ => .declared result
  | .alias _ _ => .typeName
  | .stringConstant _ _ => .symbol

/-- A definition is printed with its name in front of a space or a parenthesis. -/
private theorem exists_plain_text (d : Definition) : ∃ rest, Breaks rest ∧
    d.text.plain.toList = d.front.text.toList ++ ((quotedName d.name).toList ++ rest) := by
  have hspace : ∀ z, Breaks (' ' :: z) := breaks_cons (by decide)
  have hparenthesis : ∀ z, Breaks ('(' :: z) := breaks_cons (by decide)
  have hdeclaration : ∀ name result params, ∃ rest, Breaks rest ∧
      (declarationText name result params).plain.toList =
        (Front.declared result).text.toList ++ ((quotedName name).toList ++ rest) := by
    intro name result params
    simp only [declarationText, globalText, plain_append, plain_raw, plain_paint, sigilName,
      Front.text, String.toList_append, List.append_assoc]
    exact ⟨_, hparenthesis _, rfl⟩
  cases d with
  | function f =>
    rw [text, Function.text, front]
    split_ifs with hplaceholder
    · exact hdeclaration f.name f.result _
    · simp only [globalText, plain_append, plain_raw, plain_paint, sigilName, Front.text,
        String.toList_append, List.append_assoc]
      exact ⟨_, hparenthesis _, rfl⟩
  | external name result params => exact hdeclaration name result params
  | _ =>
    simp only [text, globalText, plain_append, plain_raw, plain_paint, sigilName,
      String.toList_append, List.append_assoc]
    exact ⟨_, hspace _, rfl⟩

/-- A definition gives away its name and what stands in front of it. -/
private theorem name_eq_of_shown {d e : Definition} {colours : Bool}
    (h : d.text.shown colours = e.text.shown colours) : d.front = e.front ∧ d.name = e.name := by
  have hplain := congrArg String.toList (plain_eq_of_shown d.allClean_text e.allClean_text h)
  obtain ⟨x, hx, hd⟩ := d.exists_plain_text
  obtain ⟨y, hy, he⟩ := e.exists_plain_text
  rw [hd, he] at hplain
  obtain ⟨hfront, hrest⟩ := Front.text_append_inj hplain
  exact ⟨hfront, (quotedName_append_inj hx hy hrest).1⟩

end Definition

/-! ### Everything that has a name -/

/-- How a name may be printed behind its sigil: as it is, or with its bytes escaped between quotes.
Either way the text is printable, and has no quotes but the outer ones. -/
inductive PrintedName (sigil : String) (name : Name) : String → Prop
  | bare (hplain : ∀ c ∈ name.toList, isPrintable c = true ∧ c ≠ '\x22') :
    PrintedName sigil name (sigil ++ name)
  | quoted (inner : String) (hplain : ∀ c ∈ inner.toList, isPrintable c = true ∧ c ≠ '\x22')
      (hdecodes : unescapeBytes? inner.toList = some (utf8Bytes name)) :
    PrintedName sigil name (sigil ++ ("\"" ++ inner ++ "\""))

/-- A name is printed behind its sigil, bare or quoted. -/
private theorem printedName_sigilName (sigil : String) (name : Name) :
    PrintedName sigil name (sigilName sigil name) := by
  rw [sigilName, quotedName]
  split_ifs with hbare
  · exact .bare fun c hc => isPrintable_of_isNameChar (isNameChar_of_isBareName hbare c hc)
  · exact .quoted _ (isPrintable_escapeBytes _) (unescapeBytes?_escapeBytes _)

/-- How a string constant may be printed: the length of its array is the number of bytes that the
text between the quotes stands for, and these are its bytes. -/
def PrintedString (name : Name) (bytes : List UInt8) (text : String) : Prop :=
  ∃ (length : Nat) (inner : String),
    text = sigilName "@" name ++ " = private unnamed_addr constant [" ++ toString length
      ++ " x i8] c\"" ++ inner ++ "\"\n" ∧
    (∀ c ∈ inner.toList, isPrintable c = true ∧ c ≠ '\x22') ∧
    unescapeBytes? inner.toList = some bytes ∧ bytes.length = length

/-- A string constant is printed with the escapes of its bytes. -/
private theorem printedString_shown (name : Name) (bytes : List UInt8) (colours : Bool) :
    PrintedString name bytes
      (strip ((Definition.stringConstant name bytes).text.shown colours)) := by
  refine ⟨bytes.length, escapeBytes bytes, ?_, isPrintable_escapeBytes bytes,
    unescapeBytes?_escapeBytes bytes, rfl⟩
  have hclean := (Definition.stringConstant name bytes).allClean_text
  have hplain : strip ((Definition.stringConstant name bytes).text.shown colours) =
      (Definition.stringConstant name bytes).text.plain := by
    cases colours with
    | false => exact strip_plain hclean
    | true => exact strip_ansi hclean
  rw [hplain]
  simp only [Definition.text, globalText, plain_append, plain_raw, plain_paint, Ty.text, Width.text]
  exact String.toList_inj.mp (by simp)

/-- Different things are shown differently: the names of globals, labels, parameters and types,
where they are used, and the definitions, blocks and parameters that have them. -/
structure ShownApart (colours : Bool) : Prop where
  globals : Function.Injective fun name => (globalText name).shown colours
  labels : Function.Injective fun label => (labelText label).shown colours
  params : Function.Injective fun name => (paramText name).shown colours
  types : Function.Injective Ty.text
  typedParams : Function.Injective fun p : Param => p.text.shown colours
  blocks : ∀ b c : Block, b.text.shown colours = c.text.shown colours → b.label = c.label
  definitions : ∀ d e : Definition, d.text.shown colours = e.text.shown colours → d.name = e.name

/-- Everything that is printed with a name gives it away. -/
private theorem shownApart (colours : Bool) : ShownApart colours where
  globals := shown_sigilName_injective .blue (by decide) colours
  labels := shown_sigilName_injective .brightRed (by decide) colours
  params := by
    intro a b h
    exact (String.append_right_inj _).mp (shown_sigilName_injective .yellow (by decide) colours h)
  types := Ty.text_injective
  typedParams := fun _ _ => Param.eq_of_shown
  blocks := fun _ _ => Block.label_eq_of_shown
  definitions := fun _ _ h => (Definition.name_eq_of_shown h).2

/-- **Printed names and bytes can be decoded.** Escaped bytes are read back as they were; behind
each sigil different names are printed differently, bare or quoted; so whatever a module defines or
uses under different names is shown differently, in colours or without, and the length of each
string constant is the number of bytes that its text stands for. -/
theorem printing_decodable (colours : Bool) :
    (∀ bytes, unescapeBytes? (escapeBytes bytes).toList = some bytes) ∧
      (∀ bytes, ∀ c ∈ (escapeBytes bytes).toList, isPrintable c = true ∧ c ≠ '\x22') ∧
      (∀ sigil, Function.Injective (sigilName sigil)) ∧
      (∀ sigil name, PrintedName sigil name (sigilName sigil name)) ∧ ShownApart colours ∧
      ∀ name bytes, PrintedString name bytes
        (strip ((Definition.stringConstant name bytes).text.shown colours)) :=
  ⟨unescapeBytes?_escapeBytes, isPrintable_escapeBytes, sigilName_injective, printedName_sigilName,
    shownApart colours, fun name bytes => printedString_shown name bytes colours⟩

/-- A name that spells an escape is printed apart from the name with the byte that the escape stands
for. -/
example : sigilName "@" "\\22" = "@\"\\5C22\"" ∧ sigilName "@" "\"" = "@\"\\22\"" ∧
    sigilName "@" "a\"b" = "@\"a\\22b\"" := by
  decide +kernel

end WordScheme
