/-!
# Double-precision numbers as fractions

A finite double is a significand times a power of two. `nearest` is the double nearest to a
fraction of natural numbers, with a tie going to the even significand; it is computed exactly, so it
rounds once, also where doubles are subnormal.
-/

namespace Constituency.Decimal

/-- The least exponent of two of a double with an integral significand. -/
def minExponent : Int := -1074

/-- The bits of positive infinity. -/
def infinityBits : Nat := 0x7FF0000000000000

/-- `num / den` divided by `2 ^ q`, as a numerator and a denominator. -/
def scaled (num den : Nat) (q : Int) : Nat × Nat :=
  if 0 ≤ q then (num, den <<< q.toNat) else (num <<< (-q).toNat, den)

/-- The quotient rounded to the nearest natural number, a half to the even one. -/
def roundHalfEven (num den : Nat) : Nat :=
  let quotient := num / den
  let twice := 2 * (num % den)
  if den < twice || (twice == den && quotient % 2 == 1) then quotient + 1 else quotient

/-- The bits of the double nearest to `num / den`. The exponent is the least one that keeps the
significand below 2^53, and rounding up to 2^53 carries into the exponent field. -/
def nearestBits (num den : Nat) : Nat :=
  let q : Int := max ((num.log2 : Int) - den.log2 - 53) minExponent
  let (n, d) := scaled num den q
  let q := if Nat.pow 2 53 ≤ n / d then q + 1 else q
  let (n, d) := scaled num den q
  let significand := roundHalfEven n d
  let bits :=
    if significand < Nat.pow 2 52 then significand
    else ((q - minExponent).toNat <<< 52) + significand
  min bits infinityBits

/-- The double nearest to `num / den`. -/
def nearest (num den : Nat) : Float := Float.ofBits (nearestBits num den).toUInt64

/-- A positive finite double: the significand `m` and the exponent `q` of `m * 2 ^ q`, and whether
the next smaller double is as far away as the next larger one. -/
structure Magnitude where
  /-- The significand. -/
  m : Nat
  /-- The exponent of two. -/
  q : Int
  /-- The gaps on both sides are equal. -/
  evenGaps : Bool

/-- The magnitude of a finite double from its bits without the sign. -/
def Magnitude.ofBits (bits : Nat) : Magnitude :=
  let field := bits >>> 52
  let fraction := bits % Nat.pow 2 52
  if field = 0 then ⟨fraction, minExponent, true⟩
  else ⟨fraction + Nat.pow 2 52, field - 1 + minExponent, fraction != 0 || field == 1⟩

end Constituency.Decimal
