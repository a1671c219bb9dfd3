import Constituency.Proofs.Decoding.Division

/-!
# Calls on a chart

Edges come into the cells of a chart in two ways: an edge is offered, and made only if it improves
the cell, or it is made first and registered afterwards. Whatever is called in whatever order, a
cell has the labels that have been submitted to it, in the order of their first submissions, and
each with the first of the cheapest edges submitted (`KeepsCheapest`). A single call puts an edge in
the place of its label or changes nothing in the cells (`perform_eq`), and either way the cheapest
edges are kept (`KeepsCheapest.perform`).
-/

namespace Constituency

variable {κ : Type} {n : Nat}

/-- What is asked of a chart. -/
inductive Call (κ : Type) (n : Nat) where
  /-- An edge is made. -/
  | alloc (edge : Edge κ)
  /-- An edge is offered to the cell of a span. -/
  | offer (s : Span n) (edge : Edge κ)
  /-- An edge that has been made is registered in the cell of a span. -/
  | register (s : Span n) (number : Nat)
  /-- The rules that can use the labels of the cell of a span are listed. -/
  | index (s : Span n) (rules : RuleIndex κ)

/-- The span whose cell a call is about, if it is about one. -/
def Call.span? : Call κ n → Option (Span n)
  | alloc _ => none
  | offer s _ | register s _ | index s _ => some s

/-- An edge that is submitted to the cell of a span. -/
structure Submission (κ : Type) (n : Nat) where
  /-- The span. -/
  span : Span n
  /-- The number that the edge has, or that it gets if it is taken. -/
  number : Nat
  /-- The edge. -/
  edge : Edge κ
  deriving DecidableEq

namespace Submission

/-- The label of the edge. -/
def label (item : Submission κ n) : String := item.edge.label

/-- Of several submissions, those to the cell of a span. -/
def toSpan (s : Span n) (items : List (Submission κ n)) : List (Submission κ n) :=
  items.filter (·.span == s)

/-- Of several submissions, those to the cell of a span for a label. -/
def forLabel (s : Span n) (label : String) (items : List (Submission κ n)) :
    List (Submission κ n) := (toSpan s items).filter (·.label == label)

/-- A submission for a label of a cell. -/
theorem mem_forLabel {s : Span n} {label : String} {items : List (Submission κ n)}
    {item : Submission κ n} :
    item ∈ forLabel s label items ↔ item ∈ items ∧ item.span = s ∧ item.label = label := by
  simp only [forLabel, toSpan, List.mem_filter, beq_iff_eq, and_assoc]

/-- The submissions to the cell of a span once there is one more. -/
theorem toSpan_append_singleton (s : Span n) (items : List (Submission κ n))
    (last : Submission κ n) :
    toSpan s (items ++ [last]) = toSpan s items ++ if last.span = s then [last] else [] := by
  simp only [toSpan, List.filter_append, List.filter_cons, List.filter_nil, beq_iff_eq]

/-- The submissions for a label of a cell once there is one more. -/
theorem forLabel_append_singleton (s : Span n) (label : String) (items : List (Submission κ n))
    (last : Submission κ n) :
    forLabel s label (items ++ [last]) =
      forLabel s label items ++ if last.span = s ∧ last.label = label then [last] else [] := by
  simp only [forLabel, toSpan_append_singleton, List.filter_append]
  by_cases hs : last.span = s
  · simp only [hs, true_and, if_true, List.filter_cons, List.filter_nil, beq_iff_eq]
  · simp only [hs, false_and, if_false, List.filter_nil]

section Order

variable [Cost κ]

/-- The cost of the edge. -/
def cost (item : Submission κ n) : κ := item.edge.cost

/-- An item of a list is the first of the cheapest ones: those before it are dearer, and none after
it is cheaper. -/
def FirstCheapest (items : List (Submission κ n)) (item : Submission κ n) : Prop :=
  ∃ before after, items = before ++ item :: after ∧ (∀ other ∈ before, item.cost < other.cost) ∧
    ∀ other ∈ after, Cost.AtMost item.cost other.cost

/-- The first of the cheapest items is one of them. -/
theorem FirstCheapest.mem {items : List (Submission κ n)} {item : Submission κ n}
    (h : FirstCheapest items item) : item ∈ items := by
  obtain ⟨before, after, rfl, -, -⟩ := h
  exact List.mem_append_right before List.mem_cons_self

/-- The first of the cheapest items is at most as dear as any. -/
theorem FirstCheapest.atMost [OrderedCost κ] {items : List (Submission κ n)}
    {item : Submission κ n} (h : FirstCheapest items item) {other : Submission κ n}
    (ho : other ∈ items) : Cost.AtMost item.cost other.cost := by
  obtain ⟨before, after, rfl, hbefore, hafter⟩ := h
  rcases List.mem_append.1 ho with ho | ho
  · exact OrderedCost.of_lt (hbefore other ho)
  · rcases List.mem_cons.1 ho with rfl | ho
    · exact OrderedCost.refl _
    · exact hafter other ho

/-- A further item that is not cheaper does not matter. -/
theorem FirstCheapest.append_of_atMost {items : List (Submission κ n)} {item last : Submission κ n}
    (h : FirstCheapest items item) (hlast : Cost.AtMost item.cost last.cost) :
    FirstCheapest (items ++ [last]) item := by
  obtain ⟨before, after, rfl, hbefore, hafter⟩ := h
  refine ⟨before, after ++ [last], by simp, hbefore, fun other ho => ?_⟩
  rcases List.mem_append.1 ho with ho | ho
  · exact hafter other ho
  · exact List.mem_singleton.1 ho ▸ hlast

/-- A further item that is cheaper than all others takes their place. -/
theorem firstCheapest_append_of_lt {items : List (Submission κ n)} {last : Submission κ n}
    (h : ∀ other ∈ items, last.cost < other.cost) : FirstCheapest (items ++ [last]) last :=
  ⟨items, [], rfl, h, fun _ ho => absurd ho List.not_mem_nil⟩

end Order

end Submission

/-- What a call submits. An edge that is offered gets the next number if it is taken. -/
def Call.submission? (chart : Chart κ n) : Call κ n → Option (Submission κ n)
  | offer s edge => some ⟨s, chart.edges.size, edge⟩
  | register s number => (chart.edge? number).map (⟨s, number, ·⟩)
  | alloc _ | index _ _ => none

namespace Chart

open Submission (FirstCheapest firstCheapest_append_of_lt toSpan forLabel mem_forLabel)

/-! ## Putting an edge in the place of its label -/

/-- The best edges after one has been put in the place of its label. -/
theorem best?_promote (chart : Chart κ n) (s t : Span n) (label other : String) (number : Nat) :
    (chart.promote s label number).best? t other =
      if s = t ∧ label = other then some number else chart.best? t other := by
  by_cases ht : s = t
  · subst ht
    rw [best?, promote, cell_setCell_self]
    by_cases hl : label = other
    · subst hl
      rw [if_pos ⟨rfl, rfl⟩]
      exact OrderedMap.find?_insert_self _ _ _
    · rw [if_neg fun h => hl h.2]
      exact OrderedMap.find?_insert_of_ne _ (Ne.symm hl) _
  · rw [if_neg fun h => ht h.1, best?, best?, cell, promote, cell?_setCell_of_ne _ (Ne.symm ht)]
    rfl

/-- The labels after an edge has been put in the place of its label: a new one comes last. -/
theorem labels_promote (chart : Chart κ n) (s : Span n) (label : String) (number : Nat) :
    ((chart.promote s label number).cell s).labels = (chart.cell s).labels ++
      if (chart.cell s).labels.contains label then [] else [label] := by
  rw [promote, cell_setCell_self]
  by_cases h : label ∈ (chart.cell s).labels
  · rw [List.contains_iff_mem.2 h, if_pos rfl, List.append_nil]
    exact OrderedMap.keys_alter_of_mem h _
  · rw [Bool.eq_false_iff.2 (mt List.contains_iff_mem.1 h), if_neg Bool.false_ne_true]
    exact OrderedMap.keys_alter_of_not_mem h _

/-- The cells of other spans after an edge has been put in the place of its label. -/
theorem cell?_promote_of_ne (chart : Chart κ n) {s t : Span n} (h : s ≠ t) (label : String)
    (number : Nat) : (chart.promote s label number).cell? t = chart.cell? t :=
  cell?_setCell_of_ne chart (Ne.symm h) _

/-! ## What a call does -/

/-- The chart in which the edge of a call has been made, but nothing else has been done. -/
def made (chart : Chart κ n) : Call κ n → Chart κ n
  | .alloc edge | .offer _ edge => (chart.alloc edge).1
  | .register _ _ | .index _ _ => chart

variable {chart : Chart κ n} {call : Call κ n} {item : Submission κ n}

/-- What submits an edge is an offer, or the registration of an edge that there is. -/
theorem submission?_cases (h : call.submission? chart = some item) :
    (∃ s edge, call = .offer s edge ∧ item = ⟨s, chart.edges.size, edge⟩) ∨
      ∃ s number edge, call = .register s number ∧ chart.edge? number = some edge ∧
        item = ⟨s, number, edge⟩ := by
  cases call with
  | alloc edge => cases h
  | offer s edge => exact .inl ⟨s, edge, rfl, (Option.some.inj h).symm⟩
  | register s number =>
    obtain ⟨edge, hedge, rfl⟩ := Option.map_eq_some_iff.1 h
    exact .inr ⟨s, number, edge, rfl, hedge, rfl⟩
  | index s rules => cases h

/-- The edge that is submitted has been made. -/
theorem edge?_made (h : call.submission? chart = some item) :
    (chart.made call).edge? item.number = some item.edge := by
  obtain ⟨s, edge, rfl, rfl⟩ | ⟨s, number, edge, rfl, hedge, rfl⟩ := submission?_cases h
  · rw [made, edge?_alloc, if_pos rfl]
  · exact hedge

/-- An edge is submitted to the cell that the call is about. -/
theorem span?_eq (h : call.submission? chart = some item) : call.span? = some item.span := by
  obtain ⟨s, edge, rfl, rfl⟩ | ⟨s, number, edge, rfl, -, rfl⟩ := submission?_cases h <;> rfl

/-- Making the edge of a call does not matter to the cells. -/
theorem cell?_made (chart : Chart κ n) (call : Call κ n) (s : Span n) :
    (chart.made call).cell? s = chart.cell? s := by
  cases call <;> rfl

/-- Making the edge of a call does not matter to the edges that there are. -/
theorem edge?_made_of_some (call : Call κ n) {number : Nat} {edge : Edge κ}
    (h : chart.edge? number = some edge) : (chart.made call).edge? number = some edge := by
  cases call with
  | alloc made | offer _ made => exact edge?_alloc_of_some h made
  | register _ _ | index _ _ => exact h

section Calls

variable [Cost κ]

/-- The chart after a call. -/
def perform (chart : Chart κ n) : Call κ n → Chart κ n
  | .alloc edge => (chart.alloc edge).1
  | .offer s edge => ((chart.offer s edge).map Prod.fst).getD chart
  | .register s number => (chart.register s number).getD chart
  | .index s rules => chart.index s rules

/-- Whether a call is taken: offers and registrations may be refused. -/
def takes (chart : Chart κ n) : Call κ n → Bool
  | .offer s edge => (chart.offer s edge).isSome
  | .register s number => (chart.register s number).isSome
  | .alloc _ | .index _ _ => true

/-- What submits no edge makes one, lists rules, or does nothing. -/
theorem submission?_none_cases (h : call.submission? chart = none) :
    (∃ edge, call = .alloc edge) ∨ (∃ s rules, call = .index s rules) ∨
      chart.perform call = chart := by
  cases call with
  | alloc edge => exact .inl ⟨edge, rfl⟩
  | offer s edge => cases h
  | register s number =>
    refine .inr (.inr ?_)
    rw [perform, register, Option.map_eq_none_iff.1 h]
    rfl
  | index s rules => exact .inr (.inl ⟨s, rules, rfl⟩)

/-- An edge that is submitted is taken if it improves the cell. -/
theorem takes_eq (h : call.submission? chart = some item) :
    chart.takes call = chart.improves item.span item.label item.cost := by
  obtain ⟨s, edge, rfl, rfl⟩ | ⟨s, number, edge, rfl, hedge, rfl⟩ := submission?_cases h
  · rw [takes, offer, Submission.label, Submission.cost]
    cases chart.improves s edge.label edge.cost <;> rfl
  · rw [takes, register, hedge, Submission.label, Submission.cost]
    dsimp only
    cases chart.improves s edge.label edge.cost <;> rfl

/-- An edge that is submitted is made and put in the place of its label if it improves the cell, and
nothing is changed otherwise. -/
theorem perform_eq (h : call.submission? chart = some item) :
    chart.perform call =
      if chart.improves item.span item.label item.cost then
        (chart.made call).promote item.span item.label item.number
      else chart := by
  obtain ⟨s, edge, rfl, rfl⟩ | ⟨s, number, edge, rfl, hedge, rfl⟩ := submission?_cases h
  · rw [perform, offer, Submission.label, Submission.cost]
    cases chart.improves s edge.label edge.cost <;> rfl
  · rw [perform, register, hedge, Submission.label, Submission.cost]
    dsimp only
    cases chart.improves s edge.label edge.cost <;> rfl

/-- A call that submits nothing leaves the best edges as they are. -/
theorem best_perform (h : call.submission? chart = none) (s : Span n) :
    ((chart.perform call).cell s).best = (chart.cell s).best := by
  obtain ⟨edge, rfl⟩ | ⟨t, rules, rfl⟩ | hsame := submission?_none_cases h
  · rfl
  · by_cases ht : s = t
    · subst ht
      rw [perform, Chart.index, cell_setCell_self]
      rfl
    · rw [perform, cell, Chart.index, cell?_setCell_of_ne _ ht]
      rfl
  · rw [hsame]

/-- An edge keeps its number. -/
theorem edge?_perform_of_some (call : Call κ n) {number : Nat} {edge : Edge κ}
    (h : chart.edge? number = some edge) : (chart.perform call).edge? number = some edge := by
  cases hitem : call.submission? chart with
  | some item =>
    rw [perform_eq hitem]
    split
    · exact edge?_made_of_some call h
    · exact h
  | none =>
    obtain ⟨made, rfl⟩ | ⟨t, rules, rfl⟩ | hsame := submission?_none_cases hitem
    · exact edge?_alloc_of_some h made
    · exact h
    · rw [hsame, h]

/-- The cells of other spans stay as they are. -/
theorem cell?_perform (chart : Chart κ n) (call : Call κ n) {s : Span n}
    (h : call.span? ≠ some s) : (chart.perform call).cell? s = chart.cell? s := by
  cases hitem : call.submission? chart with
  | some item =>
    have hs : item.span ≠ s := fun hs => h (hs ▸ span?_eq hitem)
    rw [perform_eq hitem]
    split
    · rw [cell?_promote_of_ne _ hs, cell?_made]
    · rfl
  | none =>
    obtain ⟨edge, rfl⟩ | ⟨t, rules, rfl⟩ | hsame := submission?_none_cases hitem
    · rfl
    · exact cell?_setCell_of_ne chart (fun ht => h (congrArg some ht.symm)) _
    · rw [hsame]

/-- A call that is refused changes nothing. -/
theorem perform_of_refused (h : chart.takes call = false) : chart.perform call = chart := by
  cases hitem : call.submission? chart with
  | some item =>
    rw [takes_eq hitem] at h
    rw [perform_eq hitem, h, if_neg Bool.false_ne_true]
  | none =>
    obtain ⟨edge, rfl⟩ | ⟨t, rules, rfl⟩ | hsame := submission?_none_cases hitem
    · cases h
    · cases h
    · exact hsame

/-! ## Charts stay well-formed -/

omit [Cost κ] in
/-- A chart with the same best edges, in which edges keep their numbers, is well-formed too. -/
theorem WellFormed.mono (h : chart.WellFormed) {next : Chart κ n}
    (hbest : ∀ s, (next.cell s).best = (chart.cell s).best)
    (hedge : ∀ {number : Nat} {edge : Edge κ},
      chart.edge? number = some edge → next.edge? number = some edge) : next.WellFormed where
  nodup s := by
    rw [Cell.labels, hbest]
    exact h.nodup s
  edge {s label number} hb := by
    rw [best?, hbest] at hb
    obtain ⟨edge, he, hl⟩ := h.edge hb
    exact ⟨edge, hedge he, hl⟩

omit [Cost κ] in
/-- A chart stays well-formed when an edge is put in the place of its label. -/
theorem WellFormed.promote (h : chart.WellFormed) {number : Nat} {edge : Edge κ}
    (hedge : chart.edge? number = some edge) (s : Span n) :
    (chart.promote s edge.label number).WellFormed where
  nodup t := by
    by_cases ht : s = t
    · subst ht
      rw [labels_promote]
      split
      · rw [List.append_nil]
        exact h.nodup s
      · rename_i hnew
        rw [List.contains_iff_mem] at hnew
        exact (h.nodup s).append (List.nodup_singleton _) (by simpa using hnew)
    · rw [cell, cell?_promote_of_ne _ ht]
      exact h.nodup t
  edge {t label other} hb := by
    rw [best?_promote] at hb
    split at hb
    · rename_i hsame
      obtain rfl := Option.some.inj hb
      exact ⟨edge, hedge, hsame.2⟩
    · exact h.edge hb

/-- A chart stays well-formed whatever is called. -/
theorem WellFormed.perform (h : chart.WellFormed) (call : Call κ n) :
    (chart.perform call).WellFormed := by
  cases hitem : call.submission? chart with
  | none => exact h.mono (best_perform hitem) (edge?_perform_of_some call)
  | some item =>
    have hmade : (chart.made call).WellFormed :=
      h.mono (fun s => by rw [cell, cell?_made, cell]) (edge?_made_of_some call)
    rw [perform_eq hitem]
    split
    · exact hmade.promote (edge?_made hitem) item.span
    · exact h

/-! ## The cheapest edges are kept -/

/-- Every cell has the labels that have been submitted to it, in the order of their first
submissions, and each with the first of the cheapest edges submitted. -/
structure KeepsCheapest (chart : Chart κ n) (submitted : List (Submission κ n)) : Prop where
  /-- The labels of a cell. -/
  labels : ∀ s, (chart.cell s).labels = ((toSpan s submitted).map Submission.label).eraseDups
  /-- The best edge of a label. -/
  best : ∀ {s label number}, chart.best? s label = some number →
    ∃ edge, chart.edge? number = some edge ∧
      FirstCheapest (forLabel s label submitted) ⟨s, number, edge⟩

/-- Nothing has been submitted to a chart without edges. -/
theorem keepsCheapest_empty : (empty n : Chart κ n).KeepsCheapest [] where
  labels s := by
    rw [cell, cell?_empty]
    rfl
  best h := by
    rw [best?_of_cell?_none (cell?_empty _)] at h
    cases h

namespace KeepsCheapest

variable {submitted : List (Submission κ n)}

/-- A chart whose cells keep the cheapest edges is well-formed. -/
theorem wellFormed (h : chart.KeepsCheapest submitted) : chart.WellFormed where
  nodup s := h.labels s ▸ OrderedMap.nodup_eraseDups _
  edge hb := by
    obtain ⟨edge, hedge, hfirst⟩ := h.best hb
    exact ⟨edge, hedge, (mem_forLabel.1 hfirst.mem).2.2⟩

/-- A chart with the same best edges, in which edges keep their numbers, keeps what it keeps. -/
theorem mono (h : chart.KeepsCheapest submitted) {next : Chart κ n}
    (hbest : ∀ s, (next.cell s).best = (chart.cell s).best)
    (hedge : ∀ {number : Nat} {edge : Edge κ},
      chart.edge? number = some edge → next.edge? number = some edge) :
    next.KeepsCheapest submitted where
  labels s := by
    rw [Cell.labels, hbest]
    exact h.labels s
  best {s label number} hb := by
    rw [best?, hbest] at hb
    obtain ⟨edge, he, hfirst⟩ := h.best hb
    exact ⟨edge, hedge he, hfirst⟩

/-- An edge improves a cell if it is cheaper than all that has been submitted for its label. -/
theorem improves_iff [OrderedCost κ] (h : chart.KeepsCheapest submitted) (s : Span n)
    (label : String) (cost : κ) :
    chart.improves s label cost = true ↔
      ∀ other ∈ forLabel s label submitted, cost < other.cost := by
  unfold improves
  cases hb : chart.best? s label with
  | none =>
    have hnew : forLabel s label submitted = [] := by
      refine List.eq_nil_iff_forall_not_mem.2 fun other ho => ?_
      obtain ⟨hmem, hs, rfl⟩ := mem_forLabel.1 ho
      have hlabel : other.label ∈ (chart.cell s).labels := by
        rw [h.labels s, List.mem_eraseDups]
        exact List.mem_map_of_mem (List.mem_filter.2 ⟨hmem, beq_iff_eq.2 hs⟩)
      obtain ⟨number, hbest⟩ := exists_best? hlabel
      exact absurd (hb.symm.trans hbest) nofun
    simp [hnew]
  | some number =>
    obtain ⟨edge, hedge, hfirst⟩ := h.best hb
    have hcost : chart.costOf number = edge.cost := costOf_of_edge? hedge
    show decide (cost < chart.costOf number) = true ↔ _
    rw [decide_eq_true_iff, hcost]
    constructor
    · intro hlt other ho
      exact Cost.lt_of_lt_of_atMost hlt (hfirst.atMost ho)
    · intro hall
      exact hall _ hfirst.mem

/-- The labels that have been submitted to a cell once there is one more submission. -/
theorem eraseDups_labels (h : chart.KeepsCheapest submitted) (item : Submission κ n) :
    ((toSpan item.span (submitted ++ [item])).map Submission.label).eraseDups =
      (chart.cell item.span).labels ++
        if (chart.cell item.span).labels.contains item.label then [] else [item.label] := by
  have hlisted : (chart.cell item.span).labels.contains item.label =
      ((toSpan item.span submitted).map Submission.label).contains item.label := by
    rw [h.labels, Bool.eq_iff_iff, List.contains_iff_mem, List.contains_iff_mem,
      List.mem_eraseDups]
  rw [Submission.toSpan_append_singleton, if_pos rfl, List.map_append, List.map_singleton,
    OrderedMap.eraseDups_append_singleton, hlisted, ← h.labels]

/-- An edge that has been made and improves the cell is put in the place of its label. -/
theorem promote [OrderedCost κ] (h : chart.KeepsCheapest submitted)
    (hedge : chart.edge? item.number = some item.edge)
    (hi : chart.improves item.span item.label item.cost = true) :
    (chart.promote item.span item.label item.number).KeepsCheapest (submitted ++ [item]) where
  labels s := by
    by_cases hs : item.span = s
    · subst hs
      rw [labels_promote, h.eraseDups_labels]
    · rw [Submission.toSpan_append_singleton, if_neg hs, List.append_nil, cell,
        cell?_promote_of_ne _ hs]
      exact h.labels s
  best {s label number} hb := by
    rw [best?_promote] at hb
    rw [Submission.forLabel_append_singleton]
    split at hb
    · rename_i hsame
      rw [if_pos hsame]
      obtain ⟨rfl, rfl⟩ := hsame
      obtain rfl := Option.some.inj hb
      exact ⟨item.edge, hedge, firstCheapest_append_of_lt ((h.improves_iff _ _ _).1 hi)⟩
    · rename_i hother
      rw [if_neg hother, List.append_nil]
      exact h.best hb

/-- An edge that does not improve the cell does not matter. -/
theorem refuse (h : chart.KeepsCheapest submitted)
    (hi : chart.improves item.span item.label item.cost = false) :
    chart.KeepsCheapest (submitted ++ [item]) := by
  obtain ⟨current, hcurrent, hcost⟩ := exists_best?_of_not_improves hi
  refine ⟨fun s => ?_, fun {s label number} hb => ?_⟩
  · by_cases hs : item.span = s
    · subst hs
      rw [h.eraseDups_labels, List.contains_iff_mem.2 (mem_labels_of_best? hcurrent), if_pos rfl,
        List.append_nil]
    · rw [Submission.toSpan_append_singleton, if_neg hs, List.append_nil]
      exact h.labels s
  · obtain ⟨edge, he, hfirst⟩ := h.best hb
    refine ⟨edge, he, ?_⟩
    rw [Submission.forLabel_append_singleton]
    split
    · rename_i hsame
      obtain ⟨rfl, rfl⟩ := hsame
      obtain rfl := Option.some.inj (hcurrent.symm.trans hb)
      rw [costOf_of_edge? he] at hcost
      exact hfirst.append_of_atMost hcost
    · rw [List.append_nil]
      exact hfirst

/-- A call keeps the cheapest edges. -/
theorem perform [OrderedCost κ] (h : chart.KeepsCheapest submitted) (call : Call κ n) :
    (chart.perform call).KeepsCheapest (submitted ++ (call.submission? chart).toList) := by
  cases hitem : call.submission? chart with
  | none =>
    rw [Option.toList_none, List.append_nil]
    exact h.mono (best_perform hitem) (edge?_perform_of_some call)
  | some item =>
    rw [Option.toList_some, perform_eq hitem]
    have hmade : (chart.made call).KeepsCheapest submitted :=
      h.mono (fun s => by rw [cell, cell?_made, cell]) (edge?_made_of_some call)
    split
    · rename_i hi
      refine hmade.promote (edge?_made hitem) ?_
      rw [hmade.improves_iff, ← h.improves_iff]
      exact hi
    · rename_i hi
      exact h.refuse (Bool.eq_false_iff.2 hi)

end KeepsCheapest

/-! ## Any calls in any order -/

/-- The chart after several calls. -/
def performAll (chart : Chart κ n) (calls : List (Call κ n)) : Chart κ n :=
  calls.foldl perform chart

/-- A chart stays well-formed whatever is called in whatever order. -/
theorem WellFormed.performAll (h : chart.WellFormed) (calls : List (Call κ n)) :
    (chart.performAll calls).WellFormed := by
  induction calls generalizing chart with
  | nil => exact h
  | cons call rest ih => exact ih (h.perform call)

/-- What several calls submit. -/
def submissions (chart : Chart κ n) : List (Call κ n) → List (Submission κ n)
  | [] => []
  | call :: rest => (call.submission? chart).toList ++ (chart.perform call).submissions rest

/-- Any calls keep the cheapest edges. -/
theorem KeepsCheapest.performAll [OrderedCost κ] {submitted : List (Submission κ n)}
    (h : chart.KeepsCheapest submitted) (calls : List (Call κ n)) :
    (chart.performAll calls).KeepsCheapest (submitted ++ chart.submissions calls) := by
  induction calls generalizing chart submitted with
  | nil =>
    rw [submissions, List.append_nil]
    exact h
  | cons call rest ih =>
    rw [submissions, ← List.append_assoc]
    exact ih (h.perform call)

/-- What a call does to a chart to which edges have been submitted. -/
structure ActsLocally (chart : Chart κ n) (submitted : List (Submission κ n)) (call : Call κ n) :
    Prop where
  /-- The cells of other spans stay as they are. -/
  cell : ∀ {s}, call.span? ≠ some s → (chart.perform call).cell? s = chart.cell? s
  /-- Edges keep their numbers. -/
  edge : ∀ {number : Nat} {edge : Edge κ},
    chart.edge? number = some edge → (chart.perform call).edge? number = some edge
  /-- An edge is taken if it is cheaper than all that have been submitted for its label. -/
  taken : ∀ {item}, call.submission? chart = some item →
    (chart.takes call = true ↔
      ∀ other ∈ forLabel item.span item.label submitted, item.cost < other.cost)
  /-- A call that is refused changes nothing. -/
  refused : chart.takes call = false → chart.perform call = chart

/-- Every call on a chart that keeps the cheapest edges does no more than it should. -/
theorem KeepsCheapest.actsLocally [OrderedCost κ] {submitted : List (Submission κ n)}
    (h : chart.KeepsCheapest submitted) (call : Call κ n) : chart.ActsLocally submitted call where
  cell := cell?_perform chart call
  edge := edge?_perform_of_some call
  taken hitem := by
    rw [takes_eq hitem]
    exact h.improves_iff _ _ _
  refused := perform_of_refused

/-- Whether an edge improves a cell does not depend on edges in no cell. -/
theorem WellFormed.improves_alloc (h : chart.WellFormed) (edge : Edge κ) (s : Span n)
    (label : String) (cost : κ) :
    (chart.alloc edge).1.improves s label cost = chart.improves s label cost := by
  have hbest : (chart.alloc edge).1.best? s label = chart.best? s label := rfl
  unfold improves
  rw [hbest]
  cases hb : chart.best? s label with
  | none => rfl
  | some number =>
    obtain ⟨current, hcurrent, -⟩ := h.edge hb
    dsimp only
    rw [(chart.grows_alloc s edge).costOf_eq hcurrent]

/-- An edge that is made and registered is taken if it would be when offered, and the cells are the
same afterwards. -/
structure SameAsOffer (chart : Chart κ n) (s : Span n) (edge : Edge κ) : Prop where
  /-- Either both are taken or none is. -/
  takes : (chart.alloc edge).1.takes (.register s (chart.alloc edge).2) =
    chart.takes (.offer s edge)
  /-- The cells are the same. -/
  cell : ∀ t, ((chart.alloc edge).1.perform (.register s (chart.alloc edge).2)).cell? t =
    (chart.perform (.offer s edge)).cell? t

/-- In a well-formed chart it is the same whether an edge is offered or registered. -/
theorem WellFormed.sameAsOffer (h : chart.WellFormed) (s : Span n) (edge : Edge κ) :
    chart.SameAsOffer s edge := by
  let item : Submission κ n := ⟨s, chart.edges.size, edge⟩
  have hoffer : Call.submission? chart (.offer s edge) = some item := rfl
  have hregister : Call.submission? (chart.alloc edge).1 (.register s (chart.alloc edge).2) =
      some item := by
    have hedge : (chart.alloc edge).1.edge? (chart.alloc edge).2 = some edge :=
      edge?_made hoffer
    rw [Call.submission?, hedge]
    rfl
  refine ⟨?_, fun t => ?_⟩
  · rw [takes_eq hregister, takes_eq hoffer, h.improves_alloc]
  · rw [perform_eq hregister, perform_eq hoffer, h.improves_alloc]
    split <;> rfl

/-- The lists of a cell hold the binary rules that can use its labels, each once and with the best
edge of the label. -/
structure ListsUses (chart : Chart κ n) (index : RuleIndex κ) (s : Span n) : Prop where
  /-- The rules whose first symbol is a label of the cell. -/
  mem_left : ∀ {use}, use ∈ (chart.cell s).left ↔
    ∃ rule first second, index.rule? use.rule = some rule ∧
      rule.rhs.symbols = [first, second] ∧ chart.best? s first = some use.edge
  /-- None of them is listed twice. -/
  nodup_left : ((chart.cell s).left.map Use.rule).Nodup
  /-- The rules whose second symbol is a label of the cell. -/
  mem_right : ∀ {use}, use ∈ (chart.cell s).right ↔
    ∃ rule first second, index.rule? use.rule = some rule ∧
      rule.rhs.symbols = [first, second] ∧ chart.best? s second = some use.edge
  /-- None of them is listed twice. -/
  nodup_right : ((chart.cell s).right.map Use.rule).Nodup

/-- The lists of a cell are right once they have been made. -/
theorem KeepsCheapest.listsUses [OrderedCost κ] {submitted : List (Submission κ n)}
    (h : chart.KeepsCheapest submitted) {index : RuleIndex κ} (hi : index.Agrees) (s : Span n) :
    (chart.perform (.index s index)).ListsUses index s := by
  have hw : (chart.perform (.index s index)).WellFormed := (h.perform _).wellFormed
  have hindexed : (chart.perform (.index s index)).Indexed index s := by
    rw [Indexed, Chart.perform, Chart.index, cell_setCell_self]
    rfl
  exact ⟨hindexed.mem_left hi hw, hindexed.nodup_left hi hw, hindexed.mem_right hi hw,
    hindexed.nodup_right hi hw⟩

/-- After any calls on a chart without edges, every cell has the labels that have been submitted to
it, in the order of their first submissions, and each with the first of the cheapest edges
submitted. Whatever is called then takes what is cheaper, leaves the other cells and the edges as
they are, and does nothing if it is refused. It is the same whether an edge is offered or
registered, and if the rules of a grammar are listed for a cell, they are those that can use its
labels. -/
theorem cells_keepCheapest [OrderedCost κ] (calls : List (Call κ n)) :
    let chart := (empty n : Chart κ n).performAll calls
    let submitted := (empty n : Chart κ n).submissions calls
    chart.KeepsCheapest submitted ∧
      (∀ call, chart.ActsLocally submitted call) ∧
      (∀ s edge, chart.SameAsOffer s edge) ∧
      ∀ s (g : Grammar κ),
        (chart.perform (.index s (.ofGrammar g))).ListsUses (.ofGrammar g) s := by
  intro chart submitted
  have hkeeps : chart.KeepsCheapest submitted := keepsCheapest_empty.performAll calls
  exact ⟨hkeeps, hkeeps.actsLocally, hkeeps.wellFormed.sameAsOffer,
    fun s g => hkeeps.listsUses (RuleIndex.agrees_ofGrammar g) s⟩

/-- The span of the only word of a sentence. -/
def onlyWord : Span 1 := ⟨0, 1, Nat.one_pos, Nat.le_refl 1⟩

/-- Calls on the chart of one word: of the edges for nouns the one that is offered first is dearer
than the fourth, which is registered, and of the two cheapest ones the earlier is taken. -/
def dogCalls : List (Call WholeCost 1) :=
  [.alloc (.word "dog"), .offer onlyWord (.unary "NN" ⟨2⟩ 0), .offer onlyWord (.unary "NN" ⟨3⟩ 0),
    .alloc (.unary "NN" ⟨1⟩ 0), .alloc (.unary "NN" ⟨1⟩ 0), .offer onlyWord (.unary "VB" ⟨4⟩ 0),
    .register onlyWord 2, .register onlyWord 3]

/-- The cell of the word has two labels, and its noun is the third edge. -/
theorem dogCalls_keepCheapest :
    let chart := (empty 1 : Chart WholeCost 1).performAll dogCalls
    chart.KeepsCheapest ((empty 1 : Chart WholeCost 1).submissions dogCalls) ∧
      (chart.cell onlyWord).labels = ["NN", "VB"] ∧ chart.best? onlyWord "NN" = some 2 :=
  ⟨(cells_keepCheapest dogCalls).1, by decide +kernel, by decide +kernel⟩

end Calls

end Chart

end Constituency
