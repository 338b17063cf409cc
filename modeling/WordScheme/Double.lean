import WordScheme.Text.Hex

/-!
# Double precision numbers as bit patterns

Nothing here computes with floating point numbers; they are read, compared and printed. A `Double`
is therefore its 64 bits. `==` is equality of *numbers*: no NaN equals anything and the two zeros
are equal. `Double.ofRatio` is the double nearest to a fraction, ties going to the even
significand, computed exactly.
-/

namespace WordScheme

/-- A double precision number, given by its bits. -/
structure Double where
  bits : UInt64
deriving Repr, Inhabited

namespace Double

/-- The bits of positive infinity; the bits of every larger magnitude are those of a NaN. -/
def infinityBits : Nat := 0x7FF0000000000000

/-- The bits without the sign. -/
def magnitude (x : Double) : Nat :=
  x.bits.toNat % 1 <<< 63

/-- A pattern that stands for no number. -/
def isNaN (x : Double) : Bool :=
  infinityBits < x.magnitude

/-- Equality of numbers: a NaN equals nothing, and zero has one value for both signs. -/
instance : BEq Double where
  beq x y :=
    !x.isNaN && !y.isNaN && (x.bits == y.bits || (x.magnitude == 0 && y.magnitude == 0))

/-- The quotient rounded to the nearest integer, a tie going to the even one. -/
def roundDiv (num den : Nat) : Nat :=
  let q := num / den
  let r := num % den
  if den < 2 * r || (2 * r == den && q % 2 == 1) then q + 1 else q

/-- The fraction `num / den` in units of `2 ^ e`, as a fraction again. -/
def inUnits (num den : Nat) (e : Int) : Nat × Nat :=
  if e < 0 then (num <<< e.natAbs, den) else (num, den <<< e.natAbs)

/-- The exponent of the last place of the double nearest to `num / den`: the significand has 53
bits, except that no place lies below `2 ^ (-1074)`. -/
def lastPlace (num den : Nat) : Int :=
  let e : Int := (num.log2 : Int) - (den.log2 : Int) - 52
  let (n, d) := inUnits num den e
  -- the quotient of two numbers may have one bit less than their lengths suggest
  let e := if n < d <<< 52 then e - 1 else e
  max e (-1074)

/-- The bits of the nonnegative double nearest to `num / den`, ties to even, with infinity where
the value is too large. A significand that carries over moves into the exponent field by itself,
because the exponent is added to the fraction bits. -/
def ratioBits (num den : Nat) : Nat :=
  if num == 0 then 0
  else
    let e := lastPlace num den
    let (n, d) := inUnits num den e
    min ((e + 1074).toNat <<< 52 + roundDiv n d) infinityBits

/-- The double nearest to plus or minus `num / den`. -/
def ofRatio (negative : Bool) (num den : Nat) : Double :=
  ⟨((if negative then 1 <<< 63 else 0) + ratioBits num den).toUInt64⟩

/-- The sixteen hexadecimal digits of the bits. -/
def hex (x : Double) : String :=
  String.ofList (hexDigits 16 x.bits.toNat)

end Double

end WordScheme
