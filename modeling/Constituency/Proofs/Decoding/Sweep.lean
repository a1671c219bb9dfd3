import Constituency.Proofs.Decoding.Closure
import Mathlib.Order.Hom.Basic
import Mathlib.Data.List.NodupEquivFin

/-!
# What a sweep reaches

After a sweep through all labels of a cell, whatever a unary rule makes of a label of the cell is a
label of the cell too. Its best edge is at most as dear as the rule over the edge that the label had
when the sweep met it (`Meets`). An edge that has been improved since is not looked at again, so a
chain of rules is followed at its best costs only where it climbs in the order of the labels
(`Meets.chain`).
-/

namespace Constituency.Chart

variable {κ : Type} [Cost κ] {n : Nat} {index : RuleIndex κ} {chart : Chart κ n} {s : Span n}

/-! ## Steps -/

/-- The edges that the unary rules over a label make of its best edge. -/
theorem mem_raised (hi : index.Agrees) {label : String} {edge : Edge κ} :
    edge ∈ chart.raised index s label ↔
      ∃ child rule upper, chart.best? s label = some child ∧ rule ∈ index.rules ∧
        rule.label? = some upper ∧ rule.rhs.symbols = [label] ∧
        edge = .unary upper (rule.cost + chart.costOf child) child := by
  unfold raised
  cases hb : chart.best? s label with
  | none => simp
  | some child =>
    simp only [List.mem_filterMap, hi.unary, RuleIndex.mem_numbersOf, Rule.isOver_iff,
      RuleIndex.over?_eq_some, Option.some.injEq]
    constructor
    · rintro ⟨number, ⟨rule, hr, hover⟩, rule', upper, hr', hl, rfl⟩
      obtain rfl := Option.some.inj (hr.symm.trans hr')
      exact ⟨child, rule, upper, rfl, RuleIndex.mem_rules_of_rule? hr, hl, hover, rfl⟩
    · rintro ⟨_, rule, upper, rfl, hr, hl, hover, rfl⟩
      obtain ⟨number, hn⟩ := RuleIndex.exists_rule? hr
      exact ⟨number, ⟨rule, hn, hover⟩, rule, upper, hn, hl, rfl⟩

/-- A step of the sweep at a label. -/
theorem climb_of_label {place : Nat} {label : String}
    (h : (chart.cell s).labels[place]? = some label) :
    climb index s chart place = chart.offerAll s (chart.raised index s label) := by
  rw [climb, h]

/-- A step of the sweep past the labels. -/
theorem climb_of_none {place : Nat} (h : (chart.cell s).labels[place]? = none) :
    climb index s chart place = chart := by
  rw [climb, h]

/-- A step of the sweep makes a chart grow. -/
theorem grows_climb (chart : Chart κ n) (index : RuleIndex κ) (s : Span n) (place : Nat) :
    chart.Grows s (climb index s chart place) := by
  cases h : (chart.cell s).labels[place]? with
  | none =>
    rw [climb_of_none h]
    exact Grows.refl s chart
  | some label =>
    rw [climb_of_label h]
    exact grows_offerAll chart s _

/-- A chart stays well-formed in a step of the sweep. -/
theorem WellFormed.climb (h : chart.WellFormed) (index : RuleIndex κ) (s : Span n) (place : Nat) :
    (Chart.climb index s chart place).WellFormed := by
  cases hl : (chart.cell s).labels[place]? with
  | none =>
    rw [climb_of_none hl]
    exact h
  | some label =>
    rw [climb_of_label hl]
    exact h.offerAll s _

/-- A chart grows from one step of the sweep to a later one. -/
theorem grows_sweep_sweep (chart : Chart κ n) (index : RuleIndex κ) (s : Span n) {first last : Nat}
    (h : first ≤ last) : (chart.sweep index s first).Grows s (chart.sweep index s last) := by
  induction last, h using Nat.le_induction with
  | base => exact Grows.refl s _
  | succ last _ ih =>
    rw [sweep_succ]
    exact ih.trans (grows_climb _ index s last)

/-- A sweep makes a chart grow. -/
theorem grows_sweep (chart : Chart κ n) (index : RuleIndex κ) (s : Span n) (count : Nat) :
    chart.Grows s (chart.sweep index s count) :=
  grows_sweep_sweep chart index s (Nat.zero_le count)

/-- A chart stays well-formed in a sweep. -/
theorem WellFormed.sweep (h : chart.WellFormed) (index : RuleIndex κ) (s : Span n) (count : Nat) :
    (chart.sweep index s count).WellFormed := by
  induction count with
  | zero => exact h
  | succ count ih =>
    rw [sweep_succ]
    exact ih.climb index s count

/-- A label that stands at a place of the cell in the end is there when the sweep comes to it. -/
theorem label_sweep_of_label {place count : Nat} {label : String} (hlt : place < count)
    (h : ((chart.sweep index s count).cell s).labels[place]? = some label) :
    ((chart.sweep index s place).cell s).labels[place]? = some label := by
  cases hp : ((chart.sweep index s place).cell s).labels[place]? with
  | some other =>
    have hother := (grows_sweep_sweep chart index s (Nat.le_of_lt hlt)).label_eq hp
    rw [← hother, h]
  | none =>
    -- A sweep that is past the labels stands still, so there would be no label in the end either.
    have hstill : ∀ {last : Nat}, place ≤ last →
        chart.sweep index s last = chart.sweep index s place := by
      intro last hle
      induction last, hle using Nat.le_induction with
      | base => rfl
      | succ last hle ih =>
        rw [sweep_succ, ih]
        refine climb_of_none ?_
        rw [List.getElem?_eq_none_iff] at hp ⊢
        exact hp.trans hle
    rw [hstill (Nat.le_of_lt hlt), hp] at h
    exact absurd h nofun

/-- What a rule makes of a label that has been met is a label of the cell. -/
theorem mem_labels_sweep (hi : index.Agrees) {place count : Nat} {symbol label : String}
    (hlt : place < count)
    (h : ((chart.sweep index s count).cell s).labels[place]? = some symbol) {rule : Rule κ}
    (hr : rule ∈ index.rules) (hl : rule.label? = some label)
    (hover : rule.rhs.symbols = [symbol]) :
    label ∈ ((chart.sweep index s count).cell s).labels := by
  have hmet := label_sweep_of_label hlt h
  obtain ⟨child, hchild⟩ := exists_best? (List.mem_of_getElem? hmet)
  -- The rule is offered when the sweep comes to its symbol, and labels stay in the cell.
  have hraised := (mem_raised hi).2 ⟨child, rule, label, hchild, hr, hl, hover, rfl⟩
  have hlabel := mem_labels_offerAll (chart.sweep index s place) s hraised
  rw [← climb_of_label hmet, ← sweep_succ] at hlabel
  exact (grows_sweep_sweep chart index s hlt).labels.subset hlabel

/-! ## Costs -/

/-- When the sweep meets a label of the cell, its best edge costs at most so much. -/
def Meets (chart : Chart κ n) (index : RuleIndex κ) (s : Span n) (count : Nat) (label : String)
    (bound : κ) : Prop :=
  ∃ place < count, ((chart.sweep index s place).cell s).labels[place]? = some label ∧
    (chart.sweep index s place).HasWithin s label bound

section Exact

variable [ExactCost κ] {count : Nat} {symbol label : String} {bound : κ}

/-- A sweep makes no label dearer. -/
theorem HasWithin.sweep {first last : Nat} (hw : chart.WellFormed) (hle : first ≤ last)
    (h : (chart.sweep index s first).HasWithin s label bound) :
    (chart.sweep index s last).HasWithin s label bound := by
  induction last, hle using Nat.le_induction with
  | base => exact h
  | succ last _ ih =>
    rw [sweep_succ]
    cases hl : ((chart.sweep index s last).cell s).labels[last]? with
    | none =>
      rw [climb_of_none hl]
      exact ih
    | some upper =>
      rw [climb_of_label hl]
      exact ih.offerAll (hw.sweep index s last) _

/-- A label that is met within a bound is met within a greater one. -/
theorem Meets.mono {greater : κ} (h : chart.Meets index s count label bound)
    (hle : Cost.AtMost bound greater) : chart.Meets index s count label greater := by
  obtain ⟨place, hlt, hmet, hwithin⟩ := h
  exact ⟨place, hlt, hmet, hwithin.mono hle⟩

/-- A label that is met within a bound ends up within it. -/
theorem Meets.hasWithin (hw : chart.WellFormed) (h : chart.Meets index s count label bound) :
    (chart.sweep index s count).HasWithin s label bound := by
  obtain ⟨place, hlt, -, hwithin⟩ := h
  exact hwithin.sweep hw (Nat.le_of_lt hlt)

/-- Right after a label has been met within a bound, what a rule makes of it is there at the cost of
the rule and the bound. -/
theorem hasWithin_sweep_succ (hi : index.Agrees) (hw : chart.WellFormed) {place : Nat}
    (hmet : ((chart.sweep index s place).cell s).labels[place]? = some symbol)
    (h : (chart.sweep index s place).HasWithin s symbol bound) {rule : Rule κ}
    (hr : rule ∈ index.rules) (hl : rule.label? = some label)
    (hover : rule.rhs.symbols = [symbol]) :
    (chart.sweep index s (place + 1)).HasWithin s label (rule.cost + bound) := by
  obtain ⟨child, hchild, hle⟩ := h
  have hraised := (mem_raised hi).2 ⟨child, rule, label, hchild, hr, hl, hover, rfl⟩
  rw [sweep_succ, climb_of_label hmet]
  exact (hasWithin_offerAll (hw.sweep index s place) hraised).mono
    (ExactCost.add (OrderedCost.refl _) hle)

/-- What a rule makes of a label that is met within a bound ends up at most at the cost of the rule
and the bound. -/
theorem Meets.raise (hi : index.Agrees) (hw : chart.WellFormed)
    (h : chart.Meets index s count symbol bound) {rule : Rule κ} (hr : rule ∈ index.rules)
    (hl : rule.label? = some label) (hover : rule.rhs.symbols = [symbol]) :
    (chart.sweep index s count).HasWithin s label (rule.cost + bound) := by
  obtain ⟨place, hlt, hmet, hwithin⟩ := h
  exact (hasWithin_sweep_succ hi hw hmet hwithin hr hl hover).sweep hw hlt

/-- A label of the cell that is there within a bound before it is met is met within it. -/
theorem meets_of_hasWithin (hw : chart.WellFormed) {first place : Nat} (hle : first ≤ place)
    (hlt : place < count) (h : (chart.sweep index s first).HasWithin s label bound)
    (hl : ((chart.sweep index s count).cell s).labels[place]? = some label) :
    chart.Meets index s count label bound :=
  ⟨place, hlt, label_sweep_of_label hlt hl, h.sweep hw hle⟩

/-- What a rule makes of a label that is met within a bound is itself met at most at the cost of the
rule and the bound if it comes later in the cell. -/
theorem Meets.chain (hi : index.Agrees) (hw : chart.WellFormed)
    (hcount : ((chart.sweep index s count).cell s).labels.length = count)
    (h : chart.Meets index s count symbol bound) {rule : Rule κ} (hr : rule ∈ index.rules)
    (hl : rule.label? = some label) (hover : rule.rhs.symbols = [symbol])
    (hbefore : [symbol, label].Sublist ((chart.sweep index s count).cell s).labels) :
    chart.Meets index s count label (rule.cost + bound) := by
  obtain ⟨place, hlt, hmet, hwithin⟩ := h
  have hfinal : ((chart.sweep index s count).cell s).labels[place]? = some symbol :=
    (grows_sweep_sweep chart index s (Nat.le_of_lt hlt)).label_eq hmet
  obtain ⟨position, hposition⟩ := List.sublist_iff_exists_orderEmbedding_getElem?_eq.1 hbefore
  have hfirst : some symbol = ((chart.sweep index s count).cell s).labels[position 0]? :=
    hposition 0
  have hsecond : some label = ((chart.sweep index s count).cell s).labels[position 1]? :=
    hposition 1
  -- The labels are distinct, so the two places of the lower label are the same.
  have hplace : position 0 = place := by
    have hlen : position 0 < ((chart.sweep index s count).cell s).labels.length :=
      (List.getElem?_eq_some_iff.1 hfirst.symm).1
    exact (List.getElem?_inj hlen ((hw.sweep index s count).nodup s)).1
      (hfirst.symm.trans hfinal.symm)
  -- The upper label stands further on, so it is met after the rule has been offered.
  have hlater : place < position 1 := by
    rw [← hplace]
    exact position.strictMono Nat.zero_lt_one
  have hsmall : position 1 < count := by
    rw [← hcount]
    exact (List.getElem?_eq_some_iff.1 hsecond.symm).1
  exact meets_of_hasWithin hw hlater hsmall
    (hasWithin_sweep_succ hi hw hmet hwithin hr hl hover) hsecond.symm

end Exact

end Constituency.Chart
