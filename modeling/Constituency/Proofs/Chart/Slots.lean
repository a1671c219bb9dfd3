import Constituency.Proofs.Chart.Offers

/-!
# The places of cells

The triangle of a sentence of `n + 1` words is that of `n` words and one more column, of `n + 1`
places. So every place of the triangle is that of a span: one in an earlier column by induction, and
one in the last column by its distance from the beginning of the column (`exists_slot_eq`). As
different spans have different places, the spans and the cells of a chart belong to each other one
to one (`slots_bijective`).
-/

namespace Constituency

namespace Span

variable {n : Nat}

/-- A span in a longer sentence. -/
def widen {m : Nat} (s : Span n) (h : n ≤ m) : Span m :=
  ⟨s.start, s.stop, s.start_lt_stop, Nat.le_trans s.stop_le h⟩

/-- The place of a span does not depend on the length of the sentence. -/
@[simp]
theorem slot_widen {m : Nat} (s : Span n) (h : n ≤ m) : (s.widen h).slot = s.slot := rfl

/-- Every place of the triangle is that of a span. -/
theorem exists_slot_eq {place : Nat} (h : place < total n) : ∃ s : Span n, s.slot = place := by
  induction n with
  | zero => exact absurd h (Nat.not_lt_zero place)
  | succ n ih =>
    by_cases hcolumn : place < total n
    · -- The place stands in an earlier column.
      obtain ⟨s, rfl⟩ := ih hcolumn
      exact ⟨s.widen (Nat.le_succ n), slot_widen s (Nat.le_succ n)⟩
    · -- It stands in the last one, which begins after all places of the shorter sentence.
      have hnext := total_succ n
      let s : Span (n + 1) := ⟨place - total n, n + 1, by omega, Nat.le_refl _⟩
      refine ⟨s, ?_⟩
      calc s.slot = total n + (place - total n) := slot_eq_total_add s
        _ = place := by omega

end Span

namespace Chart

variable {κ : Type}

/-- The place `j (j - 1) / 2 + i` of a span `[i, j)` lies in the triangle, different spans have
different places, and every place is that of a span. So the cells of a chart are those of its spans:
the cell of a span stands in its place, and one that is put there is the cell of that span and of no
other. -/
theorem slots_bijective (n : Nat) :
    (Function.Bijective fun s : Span n =>
      (⟨s.stop * (s.stop - 1) / 2 + s.start, s.slot_lt⟩ : Fin (n * (n + 1) / 2))) ∧
      ∀ chart : Chart κ n, chart.cells.toArray.size = n * (n + 1) / 2 ∧
        (∀ s : Span n,
          chart.cells[s.stop * (s.stop - 1) / 2 + s.start]? = some (chart.cell? s)) ∧
        ∀ (s t : Span n) (cell : Cell),
          (chart.setCell s cell).cell? t = if t = s then some cell else chart.cell? t := by
  refine ⟨⟨fun s t h => ?_, fun place => ?_⟩, fun chart => ⟨?_, fun s => ?_, ?_⟩⟩
  · exact Span.slot_injective (congrArg Fin.val h)
  · obtain ⟨s, hs⟩ := Span.exists_slot_eq place.isLt
    exact ⟨s, Fin.ext hs⟩
  · exact chart.cells.size_toArray
  · exact (cell?_eq_getElem? chart s).symm
  · exact cell?_setCell chart

/-- The ten places of a sentence of four words, column after column. -/
example : ((List.range 5).flatMap fun stop => (List.range stop).filterMap fun start =>
    (Span.between? 4 start stop).map Span.slot) = List.range 10 := by decide

end Chart

end Constituency
