import Constituency.Proofs.Chart.Calls
import Constituency.Proofs.Decoding.Sweep
import Mathlib.Order.Bounds.Basic

/-!
# The waves of the unary closure

The closure of a cell goes on as long as its last wave has improved a label. It comes to its end
(`Closure.Ends`) after one wave more than there are unary rules at most, whatever the costs are and
even if the rules run in circles. On the way the rules fire one after the other (`Raises`), each
over an edge of its symbol and none twice, and a label changes its best edge only for a cheaper one
(`Fires`). So a label comes into the cell only if the rules lead to it from those that were there;
and all of these come into it, as the sweep through the cell that the waves come to passes over
every label that it has in the end (`WellFormed.closesCell`).

Nothing is asked of the costs here. They need not be ordered: some may be incomparable to all.
-/

namespace Constituency

variable {κ : Type}

/-- A set of labels is closed under the unary rules: what a rule makes of one of its labels is one
of them too. -/
def RuleIndex.Closed (index : RuleIndex κ) (labels : Set String) : Prop :=
  ∀ rule ∈ index.rules, ∀ upper lower, rule.lhs.symbols = [upper] → rule.rhs.symbols = [lower] →
    lower ∈ labels → upper ∈ labels

variable [Cost κ] {n : Nat}

namespace Chart

/-- A unary rule fires. -/
structure Fires (index : RuleIndex κ) (s : Span n) (number : Nat) (chart next : Chart κ n) :
    Prop where
  /-- The rule is offered, over an edge of its symbol, which is a label of the cell. -/
  offered : ∃ rule upper lower, index.rule? number = some rule ∧ rule.lhs.symbols = [upper] ∧
    rule.rhs.symbols = [lower] ∧ lower ∈ (chart.cell s).labels ∧
    ∃ child below, chart.edge? child = some below ∧ below.label = lower ∧
      next = chart.offered s (.unary upper (rule.cost + below.cost) child)
  /-- A label that gets another best edge gets a cheaper one. -/
  cheaper : ∀ {label old new}, chart.best? s label = some old → next.best? s label = some new →
    new ≠ old → next.costOf new < chart.costOf old

/-- Unary rules fire one after the other. They are listed with the last one first. -/
inductive Raises (index : RuleIndex κ) (s : Span n) (start : Chart κ n) :
    List Nat → Chart κ n → Prop where
  /-- No rule has fired. -/
  | none : start.Raises index s [] start
  /-- One more rule fires. -/
  | more {fired : List Nat} {number : Nat} {chart next : Chart κ n}
    (h : start.Raises index s fired chart) (hfires : chart.Fires index s number next) :
    start.Raises index s (number :: fired) next

end Chart

/-- A closure comes to its end in so many waves: each of them starts from labels that have been
improved, and the last one improves none. -/
inductive Closure.Ends (index : RuleIndex κ) (s : Span n) :
    Nat → Closure κ n → Closure κ n → Prop where
  /-- No label has been improved. -/
  | rest {closure : Closure κ n} (h : closure.improved = []) : Ends index s 0 closure closure
  /-- Labels have been improved, and there is a wave from them. -/
  | wave {count : Nat} {closure last : Closure κ n} (h : closure.improved ≠ [])
    (hends : Ends index s count (closure.wave index s) last) :
    Ends index s (count + 1) closure last

namespace Chart

variable {index : RuleIndex κ} {s : Span n} {chart next start : Chart κ n}

/-! ## Rules that fire -/

/-- A label that gets another best edge by an offer gets a cheaper one. -/
theorem costOf_offered_lt {edge : Edge κ} {label : String} {old new : Nat}
    (hold : chart.best? s label = some old)
    (hnew : (chart.offered s edge).best? s label = some new) (hne : new ≠ old) :
    (chart.offered s edge).costOf new < chart.costOf old := by
  rcases best?_offered hnew with hsame | ⟨rfl, hedge⟩
  · exact absurd (Option.some.inj (hsame.symm.trans hold)) hne
  · rw [costOf_of_edge? hedge]
    rcases chart.offered_cases s edge with ⟨hi, -⟩ | ⟨-, ho⟩
    · exact lt_of_improves hi hold
    · rw [ho] at hnew
      exact absurd (Option.some.inj (hnew.symm.trans hold)) hne

/-- An offer brings no label into the cell but its own. -/
theorem mem_labels_of_mem_labels_offered {edge : Edge κ} {label : String}
    (h : label ∈ ((chart.offered s edge).cell s).labels) :
    label ∈ (chart.cell s).labels ∨ edge.label = label := by
  obtain ⟨number, hb⟩ := exists_best? h
  exact (best?_offered hb).imp mem_labels_of_best? And.left

/-- A chart stays well-formed when a rule fires. -/
theorem Fires.wellFormed {number : Nat} (h : chart.Fires index s number next)
    (hw : chart.WellFormed) : next.WellFormed := by
  obtain ⟨rule, upper, lower, -, -, -, -, child, below, -, -, rfl⟩ := h.offered
  exact hw.offered s _

/-- If the labels of a cell are in a closed set, they still are when a rule has fired. -/
theorem Fires.labels_subset {number : Nat} (h : chart.Fires index s number next)
    {labels : Set String} (hclosed : index.Closed labels)
    (hlabels : ∀ label ∈ (chart.cell s).labels, label ∈ labels) :
    ∀ label ∈ (next.cell s).labels, label ∈ labels := by
  obtain ⟨rule, upper, lower, hrule, hupper, hlower, hin, child, below, -, -, rfl⟩ := h.offered
  intro label hlabel
  rcases mem_labels_of_mem_labels_offered hlabel with hold | rfl
  · exact hlabels label hold
  · exact hclosed rule (RuleIndex.mem_rules_of_rule? hrule) upper lower hupper hlower
      (hlabels lower hin)

/-- A chart stays well-formed while rules fire. -/
theorem Raises.wellFormed {fired : List Nat} (h : start.Raises index s fired chart)
    (hw : start.WellFormed) : chart.WellFormed := by
  induction h with
  | none => exact hw
  | more _ hfires ih => exact hfires.wellFormed ih

/-- If the labels of a cell are in a closed set, they are in it while rules fire. -/
theorem Raises.labels_subset {fired : List Nat} (h : start.Raises index s fired chart)
    {labels : Set String} (hclosed : index.Closed labels)
    (hlabels : ∀ label ∈ (start.cell s).labels, label ∈ labels) :
    ∀ label ∈ (chart.cell s).labels, label ∈ labels := by
  induction h with
  | none => exact hlabels
  | more _ hfires ih => exact hfires.labels_subset hclosed ih

end Chart

namespace Closure

open Chart (costOf_offered_lt costOf_of_edge? mem_labels_of_best?)

variable {index : RuleIndex κ} {s : Span n} {start : Chart κ n} {closure last : Closure κ n}

/-! ## What a closure does on its way -/

section Raising

variable (hi : index.Agrees) (hone : ∀ rule ∈ index.rules, rule.lhs.size = 1)
include hi hone

/-- A rule over a label that is fired over an edge of the label fires, or has fired before. -/
theorem raises_fire (h : start.Raises index s closure.fired closure.chart) {child : Nat}
    {below : Edge κ} (hedge : closure.chart.edge? child = some below)
    (hlabel : below.label ∈ (closure.chart.cell s).labels) {number : Nat}
    (hnumber : number ∈ index.unaryRules below.label) :
    start.Raises index s (closure.fire index s child number).fired
      (closure.fire index s child number).chart := by
  by_cases hfired : number ∈ closure.fired
  · rw [fire_of_mem hfired]
    exact h
  · obtain ⟨hchart, hnext⟩ := fire_of_not_mem index s hfired child
    rw [hi.unary, RuleIndex.mem_numbersOf] at hnumber
    obtain ⟨rule, hrule, hover⟩ := hnumber
    -- The rule has a symbol on the left, so there is an edge to be offered.
    obtain ⟨upper, hupper⟩ :=
      List.length_eq_one_iff.1 (hone rule (RuleIndex.mem_rules_of_rule? hrule))
    have hmade : index.over? (closure.chart.costOf child) child number =
        some (.unary upper (rule.cost + below.cost) child) := by
      refine RuleIndex.over?_eq_some.2 ⟨rule, upper, hrule, ?_, ?_⟩
      · rw [Rule.label?, hupper, List.head?_cons]
      · rw [costOf_of_edge? hedge]
    rw [hnext, hchart, hmade]
    exact h.more ⟨⟨rule, upper, below.label, hrule, hupper, Rule.isOver_iff.1 hover, hlabel, child,
      below, hedge, rfl, rfl⟩, costOf_offered_lt⟩

/-- Rules over a label that are fired over an edge of the label fire, or have fired before. -/
theorem raises_foldl_fire (h : start.Raises index s closure.fired closure.chart) {child : Nat}
    {below : Edge κ} (hedge : closure.chart.edge? child = some below)
    (hlabel : below.label ∈ (closure.chart.cell s).labels) {numbers : List Nat}
    (hnumbers : numbers ⊆ index.unaryRules below.label) :
    start.Raises index s (numbers.foldl (fire index s child) closure).fired
      (numbers.foldl (fire index s child) closure).chart := by
  induction numbers generalizing closure with
  | nil => exact h
  | cons number rest ih =>
    obtain ⟨hnumber, hrest⟩ := List.cons_subset.1 hnumbers
    -- The edge keeps its number and the cell its label, but the edge need not be the best any more.
    have hgrows := grows_fire index s closure child number
    exact ih (raises_fire hi hone h hedge hlabel hnumber) (hgrows.edge hedge)
      (hgrows.labels.subset hlabel) hrest

/-- In a visit of a label rules fire. -/
theorem raises_visit (hw : start.WellFormed)
    (h : start.Raises index s closure.fired closure.chart) (label : String) :
    start.Raises index s (closure.visit index s label).fired
      (closure.visit index s label).chart := by
  unfold visit
  split
  · exact h
  · rename_i child hchild
    obtain ⟨below, hedge, rfl⟩ := (h.wellFormed hw).edge hchild
    exact raises_foldl_fire hi hone h hedge (mem_labels_of_best? hchild) (List.Subset.refl _)

/-- In visits of several labels rules fire. -/
theorem raises_foldl_visit (hw : start.WellFormed)
    (h : start.Raises index s closure.fired closure.chart) (labels : List String) :
    start.Raises index s (labels.foldl (visit index s) closure).fired
      (labels.foldl (visit index s) closure).chart := by
  induction labels generalizing closure with
  | nil => exact h
  | cons label rest ih => exact ih (raises_visit hi hone hw h label)

/-- In a wave rules fire. -/
theorem raises_wave (hw : start.WellFormed)
    (h : start.Raises index s closure.fired closure.chart) :
    start.Raises index s (closure.wave index s).fired (closure.wave index s).chart := by
  unfold wave
  refine raises_foldl_visit hi hone hw ?_ closure.improved
  exact h

/-- In all waves up to the end rules fire. -/
theorem Ends.raises {count : Nat} (hends : Ends index s count closure last)
    (hw : start.WellFormed) (h : start.Raises index s closure.fired closure.chart) :
    start.Raises index s last.fired last.chart := by
  induction hends with
  | rest _ => exact h
  | wave _ _ ih => exact ih (raises_wave hi hone hw h)

end Raising

/-- If nothing is improved any more after some waves at most, the closure has come to its end. -/
theorem exists_ends {count : Nat} (h : (waves index s count closure).improved = []) :
    ∃ done ≤ count, Ends index s done closure (waves index s count closure) := by
  induction count generalizing closure with
  | zero => exact ⟨0, Nat.le_refl 0, .rest h⟩
  | succ count ih =>
    rw [waves] at h ⊢
    by_cases himp : closure.improved = []
    · rw [himp, List.isEmpty_nil, if_pos rfl]
      exact ⟨0, Nat.zero_le _, .rest himp⟩
    · rw [List.isEmpty_eq_false_iff.2 himp, if_neg Bool.false_ne_true] at h ⊢
      obtain ⟨done, hle, hends⟩ := ih h
      exact ⟨done + 1, Nat.succ_le_succ hle, .wave himp hends⟩

end Closure

namespace Chart

variable {index : RuleIndex κ} {s : Span n} {chart next : Chart κ n}

/-! ## The closed cell -/

/-- The cell of a span is closed under the unary rules. -/
structure ClosesCell (index : RuleIndex κ) (s : Span n) (chart next : Chart κ n) : Prop where
  /-- There is one wave more than unary rules at most, and no rule fires twice. -/
  ends : ∃ count ≤ index.unaryCount + 1, ∃ fired : List Nat,
    Closure.Ends index s count ⟨chart, [], (chart.cell s).labels⟩ ⟨next, fired, []⟩ ∧
      fired.Nodup ∧ chart.Raises index s fired next
  /-- Edges keep their numbers, the cell keeps its labels, and other cells stay as they are. -/
  grows : chart.Grows s next
  /-- The cell has the labels that it had, those that the rules make of its labels, and no
  others. -/
  least : IsLeast {labels | (∀ label ∈ (chart.cell s).labels, label ∈ labels) ∧ index.Closed labels}
    {label | label ∈ (next.cell s).labels}

/-- The labels of the cell are closed under the unary rules in the end. -/
theorem closed_labels_closeUnary (hi : index.Agrees) (hw : chart.WellFormed) (s : Span n) :
    index.Closed {label | label ∈ ((chart.closeUnary index s).cell s).labels} := by
  intro rule hrule upper lower hupper hlower hin
  have hlabel : rule.label? = some upper := by rw [Rule.label?, hupper, List.head?_cons]
  obtain ⟨place, hlt, hplace⟩ := List.getElem_of_mem hin
  have hsweep := closeUnary_eq_sweep hi hw s
  -- The sweep has passed over every label that the cell has in the end.
  have hmet : ((chart.sweep index s
      ((chart.closeUnary index s).cell s).labels.length).cell s).labels[place]? = some lower := by
    rw [← hsweep, List.getElem?_eq_getElem hlt, hplace]
  have hupperIn := mem_labels_sweep hi hlt hmet hrule hlabel hlower
  rw [← hsweep] at hupperIn
  exact hupperIn

/-- The closure of a cell of a well-formed chart ends, and closes it. -/
theorem WellFormed.closesCell (hi : index.Agrees)
    (hone : ∀ rule ∈ index.rules, rule.lhs.size = 1) (hw : chart.WellFormed) (s : Span n) :
    chart.ClosesCell index s (chart.closeUnary index s) := by
  obtain ⟨met, hunder, hdone⟩ := Closure.Underway.waves_start hi hw s
  obtain ⟨count, hcount, hends⟩ := Closure.exists_ends hdone
  have hraises := hends.raises hi hone hw .none
  have hgrows : chart.Grows s (chart.closeUnary index s) := by
    rw [closeUnary_eq_sweep hi hw s]
    exact grows_sweep chart index s _
  refine ⟨⟨count, hcount, _, ?_, hunder.nodup, hraises⟩, hgrows, ?_⟩
  · rw [closeUnary, ← hdone]
    exact hends
  · -- A closed set that has the first labels has all that any firing of rules brings in.
    refine ⟨⟨fun label hlabel => hgrows.labels.subset hlabel, ?_⟩, ?_⟩
    · exact closed_labels_closeUnary hi hw s
    · rintro labels ⟨hlabels, hclosed⟩
      exact hraises.labels_subset hclosed hlabels

/-- If every rule of a grammar has one symbol on the left, the closure of any cell ends after one
wave more than there are unary rules at most, whatever has been called on the chart before. No rule
fires twice, and labels change their best edges for cheaper ones only. The cell then has the labels
that it had and those that the unary rules lead to from them, and all other cells are as they
were. -/
theorem closeUnary_closesCell (g : Grammar κ) (hone : ∀ rule ∈ g.syntactic, rule.lhs.size = 1)
    (calls : List (Call κ n)) (s : Span n) :
    let chart := (empty n : Chart κ n).performAll calls
    chart.ClosesCell (.ofGrammar g) s (chart.closeUnary (.ofGrammar g) s) :=
  (wellFormed_empty.performAll calls).closesCell (RuleIndex.agrees_ofGrammar g)
    (fun rule hrule => hone rule (RuleIndex.mem_syntactic_of_mem_rules hrule)) s

/-- A grammar whose unary rules run in circles, from a symbol to itself and between two. -/
def circular : Grammar WholeCost :=
  { Grammar.empty with
    syntactic :=
      [.plain (.single "X") (.single "X") ⟨1⟩, .plain (.single "A") (.single "A") ⟨1⟩,
        .plain (.single "B") (.single "A") ⟨1⟩, .plain (.single "A") (.single "B") ⟨1⟩,
        .plain (.single "S") (.single "B") ⟨1⟩] }

/-- Calls on the chart of one word that make it an `A`. -/
def circleCalls : List (Call WholeCost 1) :=
  [.alloc (.word "w"), .offer onlyWord (.unary "A" ⟨0⟩ 0)]

/-- The circles are left: the cell of the word gets the two labels that the rules lead to. -/
theorem circular_closesCell :
    (∀ rule ∈ circular.syntactic, rule.lhs.size = 1) ∧
      let chart := (empty 1 : Chart WholeCost 1).performAll circleCalls
      chart.ClosesCell (.ofGrammar circular) onlyWord
          (chart.closeUnary (.ofGrammar circular) onlyWord) ∧
        ((chart.closeUnary (.ofGrammar circular) onlyWord).cell onlyWord).labels =
          ["A", "B", "S"] := by
  have hone : ∀ rule ∈ circular.syntactic, rule.lhs.size = 1 := by decide +kernel
  exact ⟨hone, closeUnary_closesCell circular hone circleCalls onlyWord, by decide +kernel⟩

end Chart

end Constituency
