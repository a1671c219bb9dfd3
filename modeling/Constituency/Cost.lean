/-!
# Costs

A cost is the negative logarithm of a probability: the costs of the parts of a derivation add up,
and the likeliest derivation is the one of least cost. The library computes with doubles; whatever
it does with costs goes through this class, so that it can be studied over exact ones as well.
-/

namespace Constituency

/-- What is asked of a type of costs. -/
class Cost (κ : Type) extends Zero κ, Add κ, Mul κ, LT κ where
  /-- Which of two costs is less can be decided. -/
  decidableLT : ∀ a b : κ, Decidable (a < b)
  /-- The cost of what makes up `count` out of `total` occurrences. -/
  ofShare : (count total : Nat) → κ

instance Cost.instDecidableLt {κ : Type} [Cost κ] (a b : κ) : Decidable (a < b) :=
  Cost.decidableLT a b

/-- Doubles as costs, with the natural logarithm; certainty costs positive zero. -/
instance : Cost Float where
  zero := 0.0
  decidableLT a b := inferInstanceAs (Decidable (a < b))
  ofShare count total := 0.0 - (Float.ofNat count / Float.ofNat total).log

end Constituency
