/-!
# Spans

A span `[i, j)` of a sentence of `n` words has `i < j ≤ n`. The spans are numbered by the columns of
a triangle, `j (j - 1) / 2 + i`, which is below `n (n + 1) / 2`.
-/

namespace Constituency

/-- A non-empty range of word positions in a sentence of `n` words. -/
@[ext]
structure Span (n : Nat) where
  /-- The position of the first word. -/
  start : Nat
  /-- The position after the last word. -/
  stop : Nat
  /-- The range is not empty. -/
  start_lt_stop : start < stop := by omega
  /-- The range lies in the sentence. -/
  stop_le : stop ≤ n := by omega
  deriving DecidableEq

namespace Span

variable {n : Nat}

/-- The number of spans of a sentence. -/
def total (n : Nat) : Nat := n * (n + 1) / 2

/-- The place of a span in the triangle. -/
def slot (s : Span n) : Nat := s.stop * (s.stop - 1) / 2 + s.start

/-- A column and its length make the next column. -/
theorem total_succ (k : Nat) : total (k + 1) = total k + (k + 1) := by
  unfold total
  rw [show (k + 1) * (k + 1 + 1) = k * (k + 1) + 2 * (k + 1) by grind,
    Nat.add_mul_div_left _ _ (by decide)]

/-- Longer sentences have no fewer spans. -/
theorem total_le_total {k : Nat} (h : k ≤ n) : total k ≤ total n :=
  Nat.div_le_div_right (Nat.mul_le_mul h (Nat.succ_le_succ h))

/-- The place of a span is below the number of spans. -/
theorem slot_lt (s : Span n) : s.slot < total n := by
  obtain ⟨i, j, hij, hj⟩ := s
  obtain ⟨k, rfl⟩ : ∃ k, j = k + 1 := ⟨j - 1, by omega⟩
  have column : slot ⟨i, k + 1, hij, hj⟩ = total k + i := by
    simp only [slot, total, Nat.add_sub_cancel, Nat.mul_comm]
  have next := total_succ k
  have all := total_le_total hj
  omega

/-- The span from one position to another, if there is one. -/
def between? (n start stop : Nat) : Option (Span n) :=
  if h : start < stop ∧ stop ≤ n then some ⟨start, stop, h.1, h.2⟩ else none

/-- The spans of a certain length, from left to right. -/
def ofLength (n length : Nat) : List (Span n) :=
  (List.range (n + 1 - length)).filterMap fun start => between? n start (start + length)

/-- The ways to divide a span into two, the shortest first part first. -/
def splits (s : Span n) : List (Span n × Span n) :=
  (List.range' (s.start + 1) (s.stop - s.start - 1)).filterMap fun middle => do
    let left ← between? n s.start middle
    let right ← between? n middle s.stop
    return (left, right)

end Span

end Constituency
