import Constituency.Chart.Basic
import Constituency.Proofs.Chart.Span
import Constituency.Proofs.Cost
import Constituency.Proofs.OrderedMap

/-!
# Offering edges to a cell

A chart that is offered edges for one span grows: its edges keep their numbers, the cells of other
spans stay as they are, and the labels of the cell keep their order (`Grows`). Every label that is
offered ends up in the cell, the best edge of a label is one that it had or one that was offered
(`best?_offerAll`), and where any two costs can be compared it is at most as dear as each of them
(`hasWithin_offerAll`).
-/

namespace Constituency

namespace Chart

variable {κ : Type} {n : Nat}

/-- The cell of a span stands in the place of the span. -/
theorem cell?_eq_getElem? (chart : Chart κ n) (s : Span n) :
    some (chart.cell? s) = chart.cells[s.slot]? := by
  rw [Vector.getElem?_eq_getElem s.slot_lt]
  rfl

/-- The cell of a span after a cell has been put into a place. -/
theorem cell?_setCell (chart : Chart κ n) (s t : Span n) (cell : Cell) :
    (chart.setCell s cell).cell? t = if t = s then some cell else chart.cell? t := by
  apply Option.some.inj
  rw [cell?_eq_getElem?, setCell, Vector.getElem?_set]
  by_cases h : t = s
  · subst h
    rw [if_pos rfl, if_pos rfl]
  · rw [if_neg h, if_neg (fun hslot => h (Span.slot_injective (Eq.symm hslot))), cell?_eq_getElem?]

/-- The cell that has been put into a place. -/
@[simp]
theorem cell_setCell_self (chart : Chart κ n) (s : Span n) (cell : Cell) :
    (chart.setCell s cell).cell s = cell := by
  rw [Chart.cell, cell?_setCell, if_pos rfl]
  rfl

/-- A cell in another place than the one that a cell has been put into. -/
theorem cell?_setCell_of_ne (chart : Chart κ n) {s t : Span n} (h : t ≠ s) (cell : Cell) :
    (chart.setCell s cell).cell? t = chart.cell? t := by
  rw [cell?_setCell, if_neg h]

/-- A label of a cell has a best edge. -/
theorem exists_best? {chart : Chart κ n} {s : Span n} {label : String}
    (h : label ∈ (chart.cell s).labels) : ∃ number, chart.best? s label = some number :=
  OrderedMap.exists_find?_of_mem_keys h

/-- What has a best edge is a label of the cell. -/
theorem mem_labels_of_best? {chart : Chart κ n} {s : Span n} {label : String} {number : Nat}
    (h : chart.best? s label = some number) : label ∈ (chart.cell s).labels :=
  OrderedMap.mem_keys_of_find? h

/-- The cost of an edge. -/
theorem costOf_of_edge? [Cost κ] {chart : Chart κ n} {number : Nat} {edge : Edge κ}
    (h : chart.edge? number = some edge) : chart.costOf number = edge.cost := by
  rw [costOf, h]
  rfl

/-! ## Growth -/

/-- A chart grows into another one while edges are made for a span. -/
structure Grows (s : Span n) (chart next : Chart κ n) : Prop where
  /-- An edge keeps its number. -/
  edge : ∀ {number : Nat} {edge : Edge κ},
    chart.edge? number = some edge → next.edge? number = some edge
  /-- The cell of any other span stays as it is. -/
  cell : ∀ {t : Span n}, t ≠ s → next.cell? t = chart.cell? t
  /-- The labels keep their order, and new ones come last. -/
  labels : (chart.cell s).labels <+: (next.cell s).labels

namespace Grows

variable {s : Span n} {a b c : Chart κ n}

/-- A chart grows into itself. -/
theorem refl (s : Span n) (chart : Chart κ n) : chart.Grows s chart :=
  ⟨id, fun _ => rfl, List.prefix_refl _⟩

/-- Growth goes on. -/
theorem trans (h : a.Grows s b) (h' : b.Grows s c) : a.Grows s c :=
  ⟨fun he => h'.edge (h.edge he), fun ht => (h'.cell ht).trans (h.cell ht),
    h.labels.trans h'.labels⟩

/-- The cell of another span, whether it has been made or not. -/
theorem cell_eq (h : a.Grows s b) {t : Span n} (ht : t ≠ s) : b.cell t = a.cell t := by
  rw [Chart.cell, Chart.cell, h.cell ht]

/-- The best edges of another span. -/
theorem best?_eq (h : a.Grows s b) {t : Span n} (ht : t ≠ s) (label : String) :
    b.best? t label = a.best? t label := by
  rw [best?, best?, h.cell_eq ht]

/-- The labels of any span keep their order. -/
theorem labels_prefix (h : a.Grows s b) (t : Span n) :
    (a.cell t).labels <+: (b.cell t).labels := by
  by_cases ht : t = s
  · subst ht
    exact h.labels
  · have hlabels : (a.cell t).labels = (b.cell t).labels := by rw [h.cell_eq ht]
    exact hlabels ▸ List.prefix_refl _

/-- A label keeps its place. -/
theorem label_eq (h : a.Grows s b) {place : Nat} {label : String}
    (hl : (a.cell s).labels[place]? = some label) : (b.cell s).labels[place]? = some label := by
  obtain ⟨hlt, rfl⟩ := List.getElem?_eq_some_iff.1 hl
  exact List.prefix_iff_getElem?.1 h.labels place hlt

/-- An edge keeps its cost. -/
theorem costOf_eq [Cost κ] (h : a.Grows s b) {number : Nat} {edge : Edge κ}
    (he : a.edge? number = some edge) : b.costOf number = a.costOf number := by
  rw [costOf_of_edge? he, costOf_of_edge? (h.edge he)]

end Grows

/-- The labels of each cell are distinct, and the best edge of a label is an edge with that
label. -/
structure WellFormed (chart : Chart κ n) : Prop where
  /-- The labels of a cell are distinct. -/
  nodup : ∀ s, (chart.cell s).labels.Nodup
  /-- The best edge of a label. -/
  edge : ∀ {s label number}, chart.best? s label = some number →
    ∃ edge, chart.edge? number = some edge ∧ edge.label = label

/-- The chart without edges has empty cells. -/
theorem cell?_empty (s : Span n) : (empty n : Chart κ n).cell? s = none := by
  apply Option.some.inj
  rw [cell?_eq_getElem?, empty, Vector.getElem?_replicate, if_pos s.slot_lt]

/-- A span whose cell has not been made has no labels. -/
theorem best?_of_cell?_none {chart : Chart κ n} {s : Span n} (h : chart.cell? s = none)
    (label : String) : chart.best? s label = none := by
  rw [best?, cell, h]
  rfl

/-- The chart without edges is well-formed. -/
theorem wellFormed_empty : (empty n : Chart κ n).WellFormed where
  nodup s := by
    rw [cell, cell?_empty]
    exact List.nodup_nil
  edge h := by
    rw [best?_of_cell?_none (cell?_empty _)] at h
    exact absurd h nofun

/-! ## Making an edge -/

/-- The edges after one more has been made. -/
theorem edge?_alloc (chart : Chart κ n) (edge : Edge κ) (number : Nat) :
    (chart.alloc edge).1.edge? number =
      if number = chart.edges.size then some edge else chart.edge? number := by
  rw [edge?, alloc, Array.getElem?_push]
  rfl

/-- An edge that has been made keeps its number when another one is. -/
theorem edge?_alloc_of_some {chart : Chart κ n} {number : Nat} {old : Edge κ}
    (h : chart.edge? number = some old) (edge : Edge κ) :
    (chart.alloc edge).1.edge? number = some old := by
  have hne : number ≠ chart.edges.size := Nat.ne_of_lt (Array.getElem?_eq_some_iff.1 h).1
  rw [edge?_alloc, if_neg hne, h]

/-- Making an edge makes a chart grow. -/
theorem grows_alloc (chart : Chart κ n) (s : Span n) (edge : Edge κ) :
    chart.Grows s (chart.alloc edge).1 :=
  ⟨fun h => edge?_alloc_of_some h edge, fun _ => rfl, List.prefix_refl _⟩

/-- A chart stays well-formed when an edge is made. -/
theorem WellFormed.alloc {chart : Chart κ n} (h : chart.WellFormed) (edge : Edge κ) :
    (chart.alloc edge).1.WellFormed where
  nodup := h.nodup
  edge hb := by
    obtain ⟨old, he, hl⟩ := h.edge hb
    exact ⟨old, edge?_alloc_of_some he edge, hl⟩

/-- The chart after an edge has been placed. -/
theorem place_eq (chart : Chart κ n) (s : Span n) (edge : Edge κ) :
    (chart.place s edge).1 =
      (chart.alloc edge).1.setCell s
        { chart.cell s with best := (chart.cell s).best.insert edge.label chart.edges.size } := rfl

/-- The best edges of a span after an edge has been placed there. -/
theorem best?_place_self (chart : Chart κ n) (s : Span n) (edge : Edge κ) (label : String) :
    (chart.place s edge).1.best? s label =
      if label = edge.label then some chart.edges.size else chart.best? s label := by
  rw [best?, place_eq, cell_setCell_self]
  by_cases h : label = edge.label
  · subst h
    rw [if_pos rfl]
    exact OrderedMap.find?_insert_self _ _ _
  · rw [if_neg h]
    exact OrderedMap.find?_insert_of_ne _ h _

/-- The edges after one has been placed. -/
theorem edge?_place (chart : Chart κ n) (s : Span n) (edge : Edge κ) (number : Nat) :
    (chart.place s edge).1.edge? number =
      if number = chart.edges.size then some edge else chart.edge? number :=
  edge?_alloc chart edge number

/-- The labels of a span after an edge has been placed there. -/
theorem labels_place (chart : Chart κ n) (s : Span n) (edge : Edge κ) :
    ((chart.place s edge).1.cell s).labels =
      if edge.label ∈ (chart.cell s).labels then (chart.cell s).labels
      else (chart.cell s).labels ++ [edge.label] := by
  rw [place_eq, cell_setCell_self]
  by_cases h : edge.label ∈ (chart.cell s).labels
  · rw [if_pos h]
    exact OrderedMap.keys_alter_of_mem h _
  · rw [if_neg h]
    exact OrderedMap.keys_alter_of_not_mem h _

/-- Placing an edge makes a chart grow. -/
theorem grows_place (chart : Chart κ n) (s : Span n) (edge : Edge κ) :
    chart.Grows s (chart.place s edge).1 where
  edge h := edge?_alloc_of_some h edge
  cell ht := cell?_setCell_of_ne _ ht _
  labels := by
    rw [labels_place]
    split
    · exact List.prefix_refl _
    · exact List.prefix_append _ _

/-- A chart stays well-formed when an edge is placed. -/
theorem WellFormed.place {chart : Chart κ n} (h : chart.WellFormed) (s : Span n) (edge : Edge κ) :
    (chart.place s edge).1.WellFormed where
  nodup t := by
    by_cases ht : t = s
    · subst ht
      rw [labels_place]
      split
      · exact h.nodup t
      · rename_i hl
        exact (h.nodup t).append (List.nodup_singleton _) (by simpa using hl)
    · rw [(chart.grows_place s edge).cell_eq ht]
      exact h.nodup t
  edge {t label number} hb := by
    -- Only the label of the edge in the cell of the span has a new best edge.
    by_cases ht : t = s
    · subst ht
      rw [best?_place_self] at hb
      split at hb
      · rename_i hl
        obtain rfl := Option.some.inj hb
        exact ⟨edge, by rw [edge?_place, if_pos rfl], hl.symm⟩
      · obtain ⟨old, he, hl⟩ := h.edge hb
        exact ⟨old, edge?_alloc_of_some he edge, hl⟩
    · rw [(chart.grows_place s edge).best?_eq ht] at hb
      obtain ⟨old, he, hl⟩ := h.edge hb
      exact ⟨old, edge?_alloc_of_some he edge, hl⟩

section Costs

variable [Cost κ]

/-- An edge that is offered is placed if it improves the cell, and does nothing otherwise. -/
theorem offered_cases (chart : Chart κ n) (s : Span n) (edge : Edge κ) :
    (chart.improves s edge.label edge.cost = true ∧
        chart.offered s edge = (chart.place s edge).1) ∨
      (chart.improves s edge.label edge.cost = false ∧ chart.offered s edge = chart) := by
  unfold offered
  cases chart.improves s edge.label edge.cost with
  | true => exact Or.inl ⟨rfl, rfl⟩
  | false => exact Or.inr ⟨rfl, rfl⟩

/-- An edge that does not improve the cell finds its label there, on an edge that is no dearer. -/
theorem exists_best?_of_not_improves {chart : Chart κ n} {s : Span n} {label : String} {cost : κ}
    (h : chart.improves s label cost = false) :
    ∃ number, chart.best? s label = some number ∧ ¬ cost < chart.costOf number := by
  unfold improves at h
  split at h
  · rename_i number hb
    exact ⟨number, hb, of_decide_eq_false h⟩
  · exact absurd h Bool.noConfusion

/-- An edge that improves the cell is the first of its label there or cheaper than the best. -/
theorem lt_of_improves {chart : Chart κ n} {s : Span n} {label : String} {cost : κ} {number : Nat}
    (h : chart.improves s label cost = true) (hb : chart.best? s label = some number) :
    cost < chart.costOf number := by
  rw [improves, hb] at h
  exact of_decide_eq_true h

/-- Offering an edge makes a chart grow. -/
theorem grows_offered (chart : Chart κ n) (s : Span n) (edge : Edge κ) :
    chart.Grows s (chart.offered s edge) := by
  rcases chart.offered_cases s edge with ⟨-, h⟩ | ⟨-, h⟩
  · rw [h]
    exact chart.grows_place s edge
  · rw [h]
    exact Grows.refl s chart

/-- A chart stays well-formed when an edge is offered. -/
theorem WellFormed.offered {chart : Chart κ n} (h : chart.WellFormed) (s : Span n)
    (edge : Edge κ) : (chart.offered s edge).WellFormed := by
  rcases chart.offered_cases s edge with ⟨-, ho⟩ | ⟨-, ho⟩
  · rw [ho]
    exact h.place s edge
  · rw [ho]
    exact h

/-- The label of an edge that has been offered is one of the cell. -/
theorem mem_labels_offered (chart : Chart κ n) (s : Span n) (edge : Edge κ) :
    edge.label ∈ ((chart.offered s edge).cell s).labels := by
  rcases chart.offered_cases s edge with ⟨-, h⟩ | ⟨hi, h⟩
  · rw [h, labels_place]
    split
    · assumption
    · exact List.mem_append_right _ (List.mem_singleton.2 rfl)
  · rw [h]
    obtain ⟨number, hb, -⟩ := exists_best?_of_not_improves hi
    exact mem_labels_of_best? hb

/-- The best edge of a label after an edge has been offered is the one before or the one offered. -/
theorem best?_offered {chart : Chart κ n} {s : Span n} {edge : Edge κ} {label : String}
    {number : Nat} (h : (chart.offered s edge).best? s label = some number) :
    chart.best? s label = some number ∨
      edge.label = label ∧ (chart.offered s edge).edge? number = some edge := by
  rcases chart.offered_cases s edge with ⟨-, ho⟩ | ⟨-, ho⟩
  · rw [ho, best?_place_self] at h
    split at h
    · rename_i hl
      obtain rfl := Option.some.inj h
      refine Or.inr ⟨hl.symm, ?_⟩
      rw [ho, edge?_place, if_pos rfl]
    · exact Or.inl h
  · rw [ho] at h
    exact Or.inl h

/-- Offers edges to the cell of a span, one after the other. -/
def offerAll (chart : Chart κ n) (s : Span n) (edges : List (Edge κ)) : Chart κ n :=
  edges.foldl (fun chart edge => chart.offered s edge) chart

/-- Offering the edges of two lists. -/
theorem offerAll_append (chart : Chart κ n) (s : Span n) (first second : List (Edge κ)) :
    chart.offerAll s (first ++ second) = (chart.offerAll s first).offerAll s second :=
  List.foldl_append

/-- Offering one edge and then others. -/
theorem offerAll_cons (chart : Chart κ n) (s : Span n) (edge : Edge κ) (rest : List (Edge κ)) :
    chart.offerAll s (edge :: rest) = (chart.offered s edge).offerAll s rest := rfl

/-- Offering edges makes a chart grow. -/
theorem grows_offerAll (chart : Chart κ n) (s : Span n) (edges : List (Edge κ)) :
    chart.Grows s (chart.offerAll s edges) := by
  induction edges generalizing chart with
  | nil => exact Grows.refl s chart
  | cons edge rest ih =>
    rw [offerAll_cons]
    exact (chart.grows_offered s edge).trans (ih _)

/-- A chart stays well-formed when edges are offered. -/
theorem WellFormed.offerAll {chart : Chart κ n} (h : chart.WellFormed) (s : Span n)
    (edges : List (Edge κ)) : (chart.offerAll s edges).WellFormed := by
  induction edges generalizing chart with
  | nil => exact h
  | cons edge rest ih =>
    rw [offerAll_cons]
    exact ih (h.offered s edge)

/-- The labels of the edges that have been offered are labels of the cell. -/
theorem mem_labels_offerAll (chart : Chart κ n) (s : Span n) {edges : List (Edge κ)}
    {edge : Edge κ} (h : edge ∈ edges) :
    edge.label ∈ ((chart.offerAll s edges).cell s).labels := by
  induction edges generalizing chart with
  | nil => exact absurd h List.not_mem_nil
  | cons first rest ih =>
    rw [offerAll_cons]
    rcases List.mem_cons.1 h with rfl | h
    · exact (grows_offerAll _ s rest).labels.subset (mem_labels_offered chart s edge)
    · exact ih _ h

/-- The best edge of a label after edges have been offered is the one before or one of these. -/
theorem best?_offerAll {chart : Chart κ n} {s : Span n} {edges : List (Edge κ)} {label : String}
    {number : Nat} (h : (chart.offerAll s edges).best? s label = some number) :
    chart.best? s label = some number ∨
      ∃ edge ∈ edges, edge.label = label ∧ (chart.offerAll s edges).edge? number = some edge := by
  induction edges generalizing chart with
  | nil => exact Or.inl h
  | cons first rest ih =>
    rw [offerAll_cons] at h
    rcases ih h with hbest | ⟨edge, hmem, hlabel, hedge⟩
    · refine (best?_offered hbest).imp_right ?_
      rintro ⟨hlabel, hedge⟩
      exact ⟨first, List.mem_cons_self, hlabel, (grows_offerAll _ s rest).edge hedge⟩
    · exact Or.inr ⟨edge, List.mem_cons_of_mem first hmem, hlabel, hedge⟩

/-- If the cell had not been made, its labels are those of the edges that have been offered. -/
theorem mem_labels_offerAll_iff {chart : Chart κ n} {s : Span n} (hfresh : chart.cell? s = none)
    {edges : List (Edge κ)} {label : String} :
    label ∈ ((chart.offerAll s edges).cell s).labels ↔ ∃ edge ∈ edges, edge.label = label := by
  constructor
  · intro hlabel
    obtain ⟨number, hbest⟩ := exists_best? hlabel
    rcases best?_offerAll hbest with hold | ⟨edge, hmem, hlabel, -⟩
    · exact absurd (hold.symm.trans (best?_of_cell?_none hfresh label)) nofun
    · exact ⟨edge, hmem, hlabel⟩
  · rintro ⟨edge, hmem, rfl⟩
    exact mem_labels_offerAll chart s hmem

/-! ## How dear the best edge of a label is -/

/-- The cell of a span has a label whose best edge costs at most so much. -/
def HasWithin (chart : Chart κ n) (s : Span n) (label : String) (bound : κ) : Prop :=
  ∃ number, chart.best? s label = some number ∧ Cost.AtMost (chart.costOf number) bound

/-- The best edges of other spans cost what they did when a chart grows. -/
theorem Grows.hasWithin_iff {a b : Chart κ n} {s t : Span n} (h : a.Grows s b) (hw : a.WellFormed)
    (ht : t ≠ s) {label : String} {bound : κ} :
    b.HasWithin t label bound ↔ a.HasWithin t label bound := by
  -- A best edge has been made, so it keeps its number and its cost.
  have hcost : ∀ {number : Nat}, a.best? t label = some number →
      b.costOf number = a.costOf number := by
    intro number hb
    obtain ⟨edge, he, -⟩ := hw.edge hb
    exact h.costOf_eq he
  constructor
  · rintro ⟨number, hb, hc⟩
    rw [h.best?_eq ht] at hb
    rw [hcost hb] at hc
    exact ⟨number, hb, hc⟩
  · rintro ⟨number, hb, hc⟩
    rw [← hcost hb] at hc
    exact ⟨number, (h.best?_eq ht label).trans hb, hc⟩

variable [OrderedCost κ]

/-- A label that is there within a bound is there within a greater one. -/
theorem HasWithin.mono {chart : Chart κ n} {s : Span n} {label : String} {bound greater : κ}
    (h : chart.HasWithin s label bound) (hle : Cost.AtMost bound greater) :
    chart.HasWithin s label greater := by
  obtain ⟨number, hb, hc⟩ := h
  exact ⟨number, hb, OrderedCost.trans hc hle⟩

/-- What has been offered is there within its cost. -/
theorem hasWithin_offered (chart : Chart κ n) (s : Span n) (edge : Edge κ) :
    (chart.offered s edge).HasWithin s edge.label edge.cost := by
  rcases chart.offered_cases s edge with ⟨-, h⟩ | ⟨hi, h⟩
  · refine ⟨chart.edges.size, by rw [h, best?_place_self, if_pos rfl], ?_⟩
    rw [h, costOf_of_edge? (by rw [edge?_place, if_pos rfl])]
    exact OrderedCost.refl _
  · rw [h]
    exact exists_best?_of_not_improves hi

/-- An offer makes no label dearer. -/
theorem HasWithin.offered {chart : Chart κ n} {s : Span n} {label : String} {bound : κ}
    (h : chart.HasWithin s label bound) (hw : chart.WellFormed) (edge : Edge κ) :
    (chart.offered s edge).HasWithin s label bound := by
  obtain ⟨number, hb, hc⟩ := h
  rcases chart.offered_cases s edge with ⟨hi, ho⟩ | ⟨-, ho⟩
  · by_cases hl : label = edge.label
    · subst hl
      -- The old best edge gives way only to a cheaper one.
      have hlt := lt_of_improves hi hb
      exact (hasWithin_offered chart s edge).mono (OrderedCost.trans (OrderedCost.of_lt hlt) hc)
    · obtain ⟨old, he, -⟩ := hw.edge hb
      refine ⟨number, by rw [ho, best?_place_self, if_neg hl, hb], ?_⟩
      rw [(chart.grows_offered s edge).costOf_eq he]
      exact hc
  · rw [ho]
    exact ⟨number, hb, hc⟩

/-- Offers make no label dearer. -/
theorem HasWithin.offerAll {chart : Chart κ n} {s : Span n} {label : String} {bound : κ}
    (h : chart.HasWithin s label bound) (hw : chart.WellFormed) (edges : List (Edge κ)) :
    (chart.offerAll s edges).HasWithin s label bound := by
  induction edges generalizing chart with
  | nil => exact h
  | cons edge rest ih =>
    rw [offerAll_cons]
    exact ih (h.offered hw edge) (hw.offered s edge)

/-- Whatever has been offered is there within its cost. -/
theorem hasWithin_offerAll {chart : Chart κ n} {s : Span n} {edges : List (Edge κ)}
    {edge : Edge κ} (hw : chart.WellFormed) (h : edge ∈ edges) :
    (chart.offerAll s edges).HasWithin s edge.label edge.cost := by
  induction edges generalizing chart with
  | nil => exact absurd h List.not_mem_nil
  | cons first rest ih =>
    rw [offerAll_cons]
    rcases List.mem_cons.1 h with rfl | h
    · exact (hasWithin_offered chart s edge).offerAll (hw.offered s edge) rest
    · exact ih (hw.offered s first) h

/-- If the cell had not been made, the best edge of a label costs what the cheapest edge of the
label that has been offered does. -/
theorem best?_offerAll_least {chart : Chart κ n} {s : Span n} (hw : chart.WellFormed)
    (hfresh : chart.cell? s = none) {edges : List (Edge κ)} {label : String} {number : Nat}
    (h : (chart.offerAll s edges).best? s label = some number) :
    (∃ edge ∈ edges, edge.label = label ∧ edge.cost = (chart.offerAll s edges).costOf number) ∧
      ∀ edge ∈ edges, edge.label = label →
        Cost.AtMost ((chart.offerAll s edges).costOf number) edge.cost := by
  constructor
  · rcases best?_offerAll h with hold | ⟨edge, hmem, hlabel, hedge⟩
    · exact absurd (hold.symm.trans (best?_of_cell?_none hfresh label)) nofun
    · exact ⟨edge, hmem, hlabel, (costOf_of_edge? hedge).symm⟩
  · rintro edge hmem rfl
    obtain ⟨other, hother, hcost⟩ := hasWithin_offerAll hw hmem
    obtain rfl := Option.some.inj (h.symm.trans hother)
    exact hcost

end Costs

end Chart

end Constituency
