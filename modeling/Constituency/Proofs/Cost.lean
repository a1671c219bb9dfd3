import Constituency.Cost
import Mathlib.Tactic.ByContra

/-!
# Exact costs

Doubles add up with rounding errors and hold values that cannot be compared. Where it matters, costs
are assumed to be ordered, so that any two of them can be compared, or to be exact: they are ordered
and adding keeps the order. Whole numbers are such costs.
-/

namespace Constituency

variable {κ : Type} [Cost κ]

/-- A cost is at most another one if that one is not less. -/
def Cost.AtMost (a b : κ) : Prop := ¬ b < a

/-- Costs any two of which can be compared, whatever becomes of them when they are added. -/
class OrderedCost (κ : Type) [Cost κ] : Prop where
  /-- A cost is at most itself. -/
  refl : ∀ a : κ, Cost.AtMost a a
  /-- The comparison is transitive. -/
  trans : ∀ {a b c : κ}, Cost.AtMost a b → Cost.AtMost b c → Cost.AtMost a c
  /-- A lesser cost is at most the greater one. -/
  of_lt : ∀ {a b : κ}, a < b → Cost.AtMost a b

/-- Costs that are compared and added without error. -/
class ExactCost (κ : Type) [Cost κ] : Prop extends OrderedCost κ where
  /-- Sums are compared as their parts are. -/
  add : ∀ {a b c d : κ}, Cost.AtMost a b → Cost.AtMost c d → Cost.AtMost (a + c) (b + d)

/-- What is less than a cost is less than every cost that is not less than that one. -/
theorem Cost.lt_of_lt_of_atMost [OrderedCost κ] {a b c : κ} (hab : a < b) (hbc : Cost.AtMost b c) :
    a < c := by
  by_contra hac
  exact OrderedCost.trans hbc hac hab

/-- A cost of so many units. -/
structure WholeCost where
  /-- The number of units. -/
  units : Nat
  deriving DecidableEq

/-- Whole numbers as costs: a share costs as many units as there are other occurrences. -/
instance : Cost WholeCost where
  zero := ⟨0⟩
  add a b := ⟨a.units + b.units⟩
  mul a b := ⟨a.units * b.units⟩
  lt a b := a.units < b.units
  decidableLT a b := Nat.decLt a.units b.units
  ofShare count total := ⟨total - count⟩

/-- Whole numbers are exact. -/
instance : ExactCost WholeCost where
  refl a := Nat.lt_irrefl a.units
  trans hab hbc := Nat.not_lt.2 (Nat.le_trans (Nat.not_lt.1 hab) (Nat.not_lt.1 hbc))
  of_lt := Nat.not_lt_of_gt
  add hab hcd := Nat.not_lt.2 (Nat.add_le_add (Nat.not_lt.1 hab) (Nat.not_lt.1 hcd))

end Constituency
