import Constituency.Decimal.Shortest

/-!
# Doubles in positional notation

A finite double is written with the fewest digits that identify it, without an exponent, and
without a point unless digits follow it: `0`, `0.25`, `1000000000000000000000`. Negative zero keeps
its sign, infinity is `inf`, and what is not a number is `NaN`. Of two shortest decimals that are
equally near the larger one is written.
-/

namespace Constituency.Decimal

/-- A decimal in positional notation. -/
def Scaled.text (d : Scaled) : String :=
  let digits := (toString d.digits).toList
  let places := (-d.exponent).toNat
  let whole := digits ++ List.replicate d.exponent.toNat '0'
  String.ofList <|
    if places = 0 then whole
    else if places < digits.length then
      whole.take (digits.length - places) ++ '.' :: whole.drop (digits.length - places)
    else '0' :: '.' :: List.replicate (places - digits.length) '0' ++ digits

/-- The text of a double from its bits without the sign. -/
def magnitudeText (bits : Nat) : String :=
  if bits = 0 then "0"
  else if bits = infinityBits then "inf"
  else (shortest .up (Magnitude.ofBits bits)).text

/-- The text of a double. -/
def text (x : Float) : String :=
  let bits := x.toBits.toNat
  let magnitude := bits % Nat.pow 2 63
  if infinityBits < magnitude then "NaN"
  else if bits < Nat.pow 2 63 then magnitudeText magnitude
  else "-" ++ magnitudeText magnitude

end Constituency.Decimal
