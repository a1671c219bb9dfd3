import Constituency.Decimal.Binary

/-!
# Reading decimal numerals

A numeral is an optional sign and then either digits with at most one point, at least one digit in
all, and possibly an exponent, or one of the words `inf`, `infinity` and `nan` in any case. It
stands for the double nearest to its value; a value beyond the finite range stands for infinity.
-/

namespace Constituency.Decimal

/-- Why a text is no numeral. -/
inductive NumeralError where
  | empty
  | invalid
  deriving DecidableEq

/-- The wording of an error. -/
def NumeralError.message : NumeralError → String
  | .empty => "cannot parse float from empty string"
  | .invalid => "invalid float literal"

/-- The natural number written by decimal digits. -/
def digitsValue (digits : List Char) : Nat :=
  digits.foldl (fun value c => value * 10 + (c.toNat - '0'.toNat)) 0

/-- A sign and what follows it: whether it is a minus sign. -/
def cutSign : List Char → Bool × List Char
  | '-' :: rest => (true, rest)
  | '+' :: rest => (false, rest)
  | rest => (false, rest)

/-- The exponent that the rest of a numeral gives; no rest gives zero. -/
def exponent? : List Char → Option Int
  | [] => some 0
  | c :: rest =>
    if c = 'e' || c = 'E' then
      let (negative, digits) := cutSign rest
      if digits.isEmpty || !digits.all Char.isDigit then none
      else
        let value : Int := digitsValue digits
        some (if negative then -value else value)
    else none

/-- The digits before and after the point and the rest of a numeral; the point may be missing. -/
def cutDigits (chars : List Char) : List Char × List Char × List Char :=
  let (whole, rest) := chars.span Char.isDigit
  match rest with
  | '.' :: rest =>
    let (fraction, rest) := rest.span Char.isDigit
    (whole, fraction, rest)
  | _ => (whole, [], rest)

/-- A magnitude of this many decimal places or more before the point is infinite. -/
def hugePlaces : Int := 400

/-- The double nearest to `value * 10 ^ exponent`. A value of so many or so few places that it is
beyond doubt is not computed. -/
def nearestDecimal (value : Nat) (exponent : Int) : Float :=
  let places : Int := (value.log2 : Int) / 3 + exponent
  if value = 0 then 0.0
  else if hugePlaces < (value.log2 : Int) / 4 + exponent then Float.ofBits infinityBits.toUInt64
  else if places < -hugePlaces then 0.0
  else nearest (value * Nat.pow 10 exponent.toNat) (Nat.pow 10 (-exponent).toNat)

/-- The magnitude that an unsigned numeral stands for. -/
def magnitude? (chars : List Char) : Option Float :=
  let lower := chars.map Char.toLower
  if lower = ['i', 'n', 'f'] || lower = ['i', 'n', 'f', 'i', 'n', 'i', 't', 'y'] then
    some (Float.ofBits infinityBits.toUInt64)
  else if lower = ['n', 'a', 'n'] then some (0.0 / 0.0)
  else
    let (whole, fraction, rest) := cutDigits chars
    if whole.isEmpty && fraction.isEmpty then none
    else
      (exponent? rest).map fun exponent =>
        nearestDecimal (digitsValue (whole ++ fraction)) (exponent - fraction.length)

/-- Reads a numeral. -/
def read (text : String) : Except NumeralError Float :=
  if text.isEmpty then .error .empty
  else
    let (negative, chars) := cutSign text.toList
    match magnitude? chars with
    | some value => .ok (if negative then -value else value)
    | none => .error .invalid

end Constituency.Decimal
