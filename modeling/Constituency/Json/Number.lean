import Constituency.Decimal.Shortest
import Constituency.Json.Token

/-!
# The values of JSON numbers

A number without point and exponent is an integer as long as it fits into sixty-four bits; a
negative one has a sign bit, and a negative zero is no integer. Every number has a floating-point
value too: the leading digits are gathered into a significand below 2^64, digits beyond are
dropped, and the significand is multiplied or divided by one power of ten, each operation rounding
for itself. A value beyond the finite range is refused.

A number that is no integer is kept as its floating-point value. It is written again with the fewest
digits that identify this value, of two equally near decimals the one with the even last digit, and
so it need not have the same value when it is read once more.
-/

namespace Constituency.Json.Number

/-- The natural number written by decimal digits. -/
def digitsValue (digits : List Char) : Nat :=
  digits.foldl (fun value c => value * 10 + (c.toNat - '0'.toNat)) 0

/-- The integer that the number stands for, if it is written as one and fits. -/
def integer? (number : Number) : Option Int :=
  if number.fraction.isSome || number.exponent.isSome then none
  else
    let magnitude := digitsValue number.whole
    if number.negative then
      if magnitude = 0 || Nat.pow 2 63 < magnitude then none else some (-magnitude)
    else if magnitude < Nat.pow 2 64 then some magnitude
    else none

/-- The natural number that the number stands for, if it is one. -/
def natural? (number : Number) : Option Nat := number.integer?.bind fun i => i.toNat?

/-- Gathers digits as long as the significand stays below 2^64, and counts those left over. -/
def gather (significand : Nat) : List Char → Nat × Nat
  | [] => (significand, 0)
  | c :: rest =>
    let next := significand * 10 + (c.toNat - '0'.toNat)
    if next < Nat.pow 2 64 then gather next rest else (significand, rest.length + 1)

/-- A power of ten. -/
def tenTo (exponent : Nat) : Float := Float.ofScientific 1 false exponent

/-- Divides by a power of ten, in steps of the largest finite one. -/
def shrink (value : Float) (exponent : Nat) : Float :=
  if exponent ≤ 308 then value / tenTo exponent
  else if value == 0.0 then value
  else shrink (value / tenTo 308) (exponent - 308)
termination_by exponent

/-- Multiplies by a power of ten, unless the result leaves the finite range. -/
def grow? (value : Float) (exponent : Nat) : Option Float :=
  if exponent ≤ 308 then
    let product := value * tenTo exponent
    if product.isInf then none else some product
  else if value == 0.0 then some value
  else none

/-- The largest exponent that is counted. -/
def maxExponent : Nat := Nat.pow 2 31 - 1

/-- The magnitude of the floating-point value. -/
def magnitude? (number : Number) : Option Float :=
  let (significand, dropped) := gather 0 number.whole
  let fraction := number.fraction.getD []
  let (significand, ignored) := gather significand fraction
  let base : Int := dropped - (fraction.length - ignored : Nat)
  let scaled (exponent : Int) : Option Float :=
    let value := Float.ofNat significand
    if 0 ≤ exponent then grow? value exponent.toNat else some (shrink value (-exponent).toNat)
  match number.exponent with
  | none => scaled base
  | some (negative, digits) =>
    let written := digitsValue digits
    if maxExponent < written then
      if significand ≠ 0 && !negative then none else some 0.0
    else scaled (if negative then base - written else base + written)

/-- The floating-point value; an integer is rounded once. -/
def float? (number : Number) : Option Float :=
  match number.integer? with
  | some i => some (if i < 0 then -Float.ofNat (-i).toNat else Float.ofNat i.toNat)
  | none => number.magnitude?.map fun value => if number.negative then -value else value

/-- The largest number of digits of an integral floating-point value that is written without an
exponent. -/
def maxWholeDigits : Nat := 16

/-- The way in which a finite floating-point value is written: with a zero behind the point if it is
integral and not too large, and otherwise with an exponent. -/
def ofFloat (value : Float) : Number :=
  let bits := value.toBits.toNat
  let negative := Nat.pow 2 63 ≤ bits
  if bits % Nat.pow 2 63 = 0 then ⟨negative, ['0'], some ['0'], none⟩
  else
    let decimal := Decimal.shortest .even (.ofBits (bits % Nat.pow 2 63))
    let digits := (toString decimal.digits).toList
    let zeros := decimal.exponent.toNat
    if 0 ≤ decimal.exponent && digits.length + zeros ≤ maxWholeDigits then
      ⟨negative, digits ++ List.replicate zeros '0', some ['0'], none⟩
    else
      let exponent := (toString decimal.exponent.natAbs).toList
      ⟨negative, digits, none, some (decimal.exponent < 0, exponent)⟩

/-- The number as it is kept: an integer as it is, any other number as its floating-point value. -/
def kept? (number : Number) : Option Number :=
  match number.integer? with
  | some _ => some number
  | none => number.float?.map ofFloat

end Constituency.Json.Number
