import WordScheme.Double

/-!
# Numerals

Two shapes of atom are numbers, each with an optional sign in front:

* an integer is one or more digits;
* a decimal is digits with one point among them, before or after them, and at least one digit.

An integer is read exactly and refused outside the signed 64-bit range; a decimal is read as the
nearest double. The texts of doubles (`isDoubleText`) are more than the decimals: integers, numbers
with an exponent and the names of infinity and of what is not a number belong to them too.
-/

namespace WordScheme.Numeral

/-- Whether a minus sign stands in front, and what follows the sign. -/
def splitSign : List Char → Bool × List Char
  | '-' :: cs => (true, cs)
  | '+' :: cs => (false, cs)
  | cs => (false, cs)

/-- The value of a list of decimal digits. -/
def digitsValue (ds : List Char) : Nat :=
  ds.foldl (fun n d => 10 * n + (d.toNat - 48)) 0

/-- A sign, if any, and one or more digits. -/
def isInteger (cs : List Char) : Bool :=
  let digits := (splitSign cs).2
  !digits.isEmpty && digits.all Char.isDigit

/-- The value of an integer numeral. -/
def integerValue (cs : List Char) : Int :=
  let (negative, digits) := splitSign cs
  if negative then -(digitsValue digits : Int) else digitsValue digits

/-- The word that an integer numeral denotes, if its value is in range. -/
def word? (cs : List Char) : Option Int64 :=
  let value := integerValue cs
  if Int64.minValue.toInt ≤ value && value ≤ Int64.maxValue.toInt then some (Int64.ofInt value)
  else none

/-- The digits before and after the point of a decimal numeral without its sign. -/
def splitPoint? (cs : List Char) : Option (List Char × List Char) :=
  let whole := cs.takeWhile Char.isDigit
  match cs.dropWhile Char.isDigit with
  | '.' :: places =>
    if places.all Char.isDigit && !(whole.isEmpty && places.isEmpty) then some (whole, places)
    else none
  | _ => none

/-- The double nearest to the value of a decimal numeral. -/
def double? (cs : List Char) : Option Double :=
  let (negative, digits) := splitSign cs
  (splitPoint? digits).map fun (whole, places) =>
    .ofRatio negative (digitsValue (whole ++ places)) (Nat.pow 10 places.length)

/-- The letter `e` and an integer, or nothing. -/
def isExponent : List Char → Bool
  | [] => true
  | 'e' :: cs => isInteger cs
  | _ => false

/-- Digits, with one point among them or none, and an exponent if any. -/
def isNumber (cs : List Char) : Bool :=
  let whole := cs.takeWhile Char.isDigit
  match cs.dropWhile Char.isDigit with
  | '.' :: cs =>
    let places := cs.takeWhile Char.isDigit
    !(whole.isEmpty && places.isEmpty) && isExponent (cs.dropWhile Char.isDigit)
  | cs => !whole.isEmpty && isExponent cs

/-- Whether a text, in letters of either case, is that of a double: infinity, what is not a number,
or a number, each behind a sign if any. -/
def isDoubleText (cs : List Char) : Bool :=
  let unsigned := (splitSign (cs.map Char.toLower)).2
  ["inf", "infinity", "nan"].contains (String.ofList unsigned) || isNumber unsigned

end WordScheme.Numeral
