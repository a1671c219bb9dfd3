import Constituency.Decimal.Binary

/-!
# The shortest decimal of a double

The reals that round to a double are an interval around it, to which the ends belong when the
significand is even. The shortest decimal is a multiple of the largest power of ten that has a
multiple in this interval: of the two multiples next to the double the nearer one in the interval,
and of two equally near ones the one that the notation at hand prefers.
-/

namespace Constituency.Decimal

/-- A decimal by its digits and their scale: `digits * 10 ^ exponent`. -/
structure Scaled where
  /-- The digits as a natural number. -/
  digits : Nat
  /-- The exponent of ten. -/
  exponent : Int

/-- Which of two equally near multiples is preferred. -/
inductive Tie where
  /-- The larger one. -/
  | up
  /-- The one with the even factor. -/
  | even
  deriving DecidableEq

/-- A double and the interval of reals that round to it, all in the unit that makes one step of the
grid `10 ^ exponent` the natural number `step`. -/
structure Ruler where
  /-- The length of one step of the grid. -/
  step : Nat
  /-- The double. -/
  value : Nat
  /-- The lower end of the interval. -/
  low : Nat
  /-- The upper end of the interval. -/
  high : Nat
  /-- The ends belong to the interval. -/
  closed : Bool

namespace Ruler

/-- Measures a double by the grid `10 ^ p`; a quarter of its last place is the common unit. -/
def ofMagnitude (v : Magnitude) (p : Int) : Ruler :=
  let unit := v.q - 2
  let times := Nat.pow 10 (-p).toNat * Nat.pow 2 unit.toNat
  { step := Nat.pow 10 p.toNat * Nat.pow 2 (-unit).toNat
    value := 4 * v.m * times
    low := (4 * v.m - if v.evenGaps then 2 else 1) * times
    high := (4 * v.m + 2) * times
    closed := v.m % 2 == 0 }

/-- Whether a multiple of the step lies in the interval. -/
def holds (r : Ruler) (multiple : Nat) : Bool :=
  let x := multiple * r.step
  if r.closed then r.low ≤ x && x ≤ r.high else r.low < x && x < r.high

/-- Whether the larger neighbour of the double is to be taken: it is nearer, or both are equally
near and it is preferred. -/
def takesLarger (r : Ruler) (tie : Tie) : Bool :=
  let twice := 2 * (r.value % r.step)
  r.step < twice || (twice == r.step && (tie = .up || r.value / r.step % 2 == 1))

/-- The multiple of the step that stands for the double, if one of its two neighbours lies in the
interval. -/
def hit? (r : Ruler) (tie : Tie) : Option Nat :=
  let below := r.value / r.step
  match r.holds below, r.holds (below + 1) with
  | true, true => some (if r.takesLarger tie then below + 1 else below)
  | true, false => some below
  | false, true => some (below + 1)
  | false, false => none

end Ruler

/-- An exponent of ten that is not below the decimal logarithm of a magnitude, and above it by no
more than two. -/
def Magnitude.exponentBound (v : Magnitude) : Int := ((v.m.log2 + v.q + 1) * 30103).fdiv 100000 + 1

/-- Looks for the shortest decimal on `count` grids of exponents from `p` downwards. -/
def shortestFrom (tie : Tie) (v : Magnitude) (p : Int) : (count : Nat) → Scaled
  | 0 => ⟨0, 0⟩
  | count + 1 =>
    match (Ruler.ofMagnitude v p).hit? tie with
    | some digits => ⟨digits, p⟩
    | none => shortestFrom tie v (p - 1) count

/-- The shortest decimal of a positive finite double. Seventeen digits always suffice, so a grid
among the first twenty has a hit. -/
def shortest (tie : Tie) (v : Magnitude) : Scaled := shortestFrom tie v v.exponentBound 20

end Constituency.Decimal
