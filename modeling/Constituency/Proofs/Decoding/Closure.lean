import Constituency.Decoding
import Constituency.Proofs.Chart.Offers
import Constituency.Proofs.RuleIndex
import Mathlib.Data.List.Perm.Subperm

/-!
# The unary closure as one pass

The closure of a cell goes in waves, and a rule fires at most once. As all rules over a label fire
when the label is first met, nothing happens when it is met again; and the labels are first met in
the order in which they stand in the cell, where a new one comes last. So the waves come to one pass
through the labels of the cell, which grows on the way (`closeUnary_eq_sweep`): at each label the
rules over it are offered with its best edge at that time.

The proof carries what a wave leaves to be done: the labels of the cell are those already met, then
those of the rest of this wave, then those of the next one (`Underway`).
-/

namespace Constituency

variable {κ : Type} [Cost κ] {n : Nat}

/-- The edge that a unary rule makes over an edge with a certain cost and number. -/
def RuleIndex.over? (index : RuleIndex κ) (cost : κ) (child number : Nat) : Option (Edge κ) := do
  let rule ← index.rule? number
  let label ← rule.label?
  return .unary label (rule.cost + cost) child

/-- What a rule with a symbol on the left makes. -/
theorem RuleIndex.over?_eq_some {index : RuleIndex κ} {cost : κ} {child number : Nat}
    {edge : Edge κ} :
    index.over? cost child number = some edge ↔
      ∃ rule label, index.rule? number = some rule ∧ rule.label? = some label ∧
        edge = .unary label (rule.cost + cost) child := by
  simp only [over?, Option.bind_eq_bind, Option.bind_eq_some_iff, Option.pure_def,
    Option.some.injEq]
  constructor
  · rintro ⟨rule, hr, label, hl, rfl⟩
    exact ⟨rule, label, hr, hl, rfl⟩
  · rintro ⟨rule, label, hr, hl, rfl⟩
    exact ⟨rule, hr, label, hl, rfl⟩

namespace Chart

/-- The edges that the unary rules over a label of a cell make of its best edge. -/
def raised (chart : Chart κ n) (index : RuleIndex κ) (s : Span n) (label : String) :
    List (Edge κ) :=
  match chart.best? s label with
  | none => []
  | some child => (index.unaryRules label).filterMap (index.over? (chart.costOf child) child)

/-- Offers the unary rules over the label at a place of a cell. -/
def climb (index : RuleIndex κ) (s : Span n) (chart : Chart κ n) (place : Nat) : Chart κ n :=
  match (chart.cell s).labels[place]? with
  | none => chart
  | some label => chart.offerAll s (chart.raised index s label)

/-- Offers the unary rules over the labels at the first places of a cell, one after the other. -/
def sweep (chart : Chart κ n) (index : RuleIndex κ) (s : Span n) (count : Nat) : Chart κ n :=
  (List.range count).foldl (climb index s) chart

/-- One more place of the sweep. -/
theorem sweep_succ (chart : Chart κ n) (index : RuleIndex κ) (s : Span n) (count : Nat) :
    chart.sweep index s (count + 1) = climb index s (chart.sweep index s count) count := by
  rw [sweep, List.range_succ, List.foldl_append, List.foldl_cons, List.foldl_nil, sweep]

end Chart

namespace Closure

variable {index : RuleIndex κ} {s : Span n}

/-! ## Firing rules -/

/-- A rule that has fired does nothing. -/
theorem fire_of_mem {closure : Closure κ n} {number : Nat} (h : number ∈ closure.fired)
    (child : Nat) : closure.fire index s child number = closure := by
  rw [fire, if_pos (List.contains_iff_mem.2 h)]

/-- The labels to visit in the next wave once a label has been improved. -/
def improvedWith (closure : Closure κ n) (label : String) : List String :=
  if closure.improved.contains label then closure.improved else closure.improved ++ [label]

/-- What a rule that has not fired does: it places its edge if that improves the cell, and but for
having fired it does nothing if it does not, or if there is no such edge. -/
theorem fire_cases (index : RuleIndex κ) (s : Span n) {closure : Closure κ n} {number : Nat}
    (h : number ∉ closure.fired) (child : Nat) :
    (∃ edge, index.over? (closure.chart.costOf child) child number = some edge ∧
        closure.chart.offered s edge = (closure.chart.place s edge).1 ∧
        closure.fire index s child number =
          ⟨(closure.chart.place s edge).1, number :: closure.fired,
            closure.improvedWith edge.label⟩) ∨
      (closure.fire index s child number = { closure with fired := number :: closure.fired } ∧
        ∀ edge, index.over? (closure.chart.costOf child) child number = some edge →
          closure.chart.offered s edge = closure.chart) := by
  have hc : closure.fired.contains number = false := by
    rw [Bool.eq_false_iff, ne_eq, List.contains_iff_mem]
    exact h
  cases hr : index.rule? number with
  | none =>
    right
    refine ⟨by rw [fire, hc, if_neg Bool.false_ne_true, hr], fun edge he => ?_⟩
    rw [RuleIndex.over?, hr] at he
    exact absurd he nofun
  | some rule =>
    cases hl : rule.label? with
    | none =>
      right
      refine ⟨by simp only [fire, hc, Bool.false_eq_true, if_false, hr, hl], fun edge he => ?_⟩
      obtain ⟨r, label, hr', hl', -⟩ := RuleIndex.over?_eq_some.1 he
      obtain rfl := Option.some.inj (hr.symm.trans hr')
      exact absurd (hl.symm.trans hl') nofun
    | some label =>
      let edge : Edge κ := .unary label (rule.cost + closure.chart.costOf child) child
      have hover : index.over? (closure.chart.costOf child) child number = some edge :=
        RuleIndex.over?_eq_some.2 ⟨rule, label, hr, hl, rfl⟩
      -- Firing and offering ask the same question, whether the edge improves the cell.
      rcases closure.chart.offered_cases s edge with ⟨hi, ho⟩ | ⟨hi, ho⟩
      · refine Or.inl ⟨edge, hover, ho, ?_⟩
        have hi' : closure.chart.improves s label edge.cost = true := hi
        simp only [fire, hc, Bool.false_eq_true, if_false, hr, hl]
        rw [if_pos hi']
        rfl
      · refine Or.inr ⟨?_, fun edge' he => ?_⟩
        · have hi' : ¬ closure.chart.improves s label edge.cost = true := by
            rw [Bool.not_eq_true]
            exact hi
          simp only [fire, hc, Bool.false_eq_true, if_false, hr, hl]
          rw [if_neg hi']
        · obtain rfl := Option.some.inj (hover.symm.trans he)
          exact ho

/-- A rule that has not fired is offered, and has fired then. -/
theorem fire_of_not_mem (index : RuleIndex κ) (s : Span n) {closure : Closure κ n} {number : Nat}
    (h : number ∉ closure.fired) (child : Nat) :
    (closure.fire index s child number).chart =
        closure.chart.offerAll s (index.over? (closure.chart.costOf child) child number).toList ∧
      (closure.fire index s child number).fired = number :: closure.fired := by
  rcases fire_cases index s h child with ⟨edge, hover, ho, hf⟩ | ⟨hf, hnone⟩
  · rw [hf, hover]
    exact ⟨ho.symm, rfl⟩
  · rw [hf]
    refine ⟨?_, rfl⟩
    cases hover : index.over? (closure.chart.costOf child) child number with
    | none => rfl
    | some edge => exact (hnone edge hover).symm

/-- A chart grows when a rule is fired. -/
theorem grows_fire (index : RuleIndex κ) (s : Span n) (closure : Closure κ n) (child number : Nat) :
    closure.chart.Grows s (closure.fire index s child number).chart := by
  by_cases hfired : number ∈ closure.fired
  · rw [fire_of_mem hfired]
    exact Chart.Grows.refl s _
  · rw [(fire_of_not_mem index s hfired child).1]
    exact Chart.grows_offerAll _ s _

/-- A list of edges that starts with what may be made of the first number. -/
theorem filterMap_cons_toList {α β : Type} (f : α → Option β) (a : α) (rest : List α) :
    (a :: rest).filterMap f = (f a).toList ++ rest.filterMap f := by
  rw [List.filterMap_cons]
  cases f a <;> rfl

/-- Rules that have not fired are offered one after the other, and have fired then. -/
theorem foldl_fire (index : RuleIndex κ) (s : Span n) {closure : Closure κ n} {child : Nat}
    {below : Edge κ}
    (hchild : closure.chart.edge? child = some below) {numbers : List Nat}
    (hnodup : numbers.Nodup) (hnew : ∀ number ∈ numbers, number ∉ closure.fired) :
    (numbers.foldl (fire index s child) closure).chart =
        closure.chart.offerAll s
          (numbers.filterMap (index.over? (closure.chart.costOf child) child)) ∧
      (numbers.foldl (fire index s child) closure).fired =
        numbers.reverse ++ closure.fired := by
  induction numbers generalizing closure with
  | nil => exact ⟨rfl, rfl⟩
  | cons number rest ih =>
    obtain ⟨hnotin, hrest⟩ := List.nodup_cons.1 hnodup
    obtain ⟨hchart, hfired⟩ :=
      fire_of_not_mem index s (hnew number List.mem_cons_self) child
    -- The chart grows, so the edge below keeps its number and cost for the rules that follow.
    have hgrows := grows_fire index s closure child number
    have hnew' : ∀ k ∈ rest, k ∉ (closure.fire index s child number).fired := by
      intro k hk
      rw [hfired, List.mem_cons, not_or]
      exact ⟨fun h => hnotin (h ▸ hk), hnew k (List.mem_cons_of_mem _ hk)⟩
    obtain ⟨hchart', hfired'⟩ := ih (hgrows.edge hchild) hrest hnew'
    rw [List.foldl_cons]
    constructor
    · rw [hchart', hgrows.costOf_eq hchild, hchart, filterMap_cons_toList, Chart.offerAll_append]
    · rw [hfired', hfired, List.reverse_cons, List.append_assoc]
      rfl

/-! ## What a wave leaves to be done -/

/-- The labels of the cell, in order: those that have been met, those that the rest of the wave is
the first to meet, and those that the next wave is the first to meet. -/
structure Queued (s : Span n) (met wave : List String) (closure : Closure κ n) : Prop where
  /-- The labels of the cell. -/
  labels : (closure.chart.cell s).labels =
    met ++ wave.filter (· ∉ met) ++ closure.improved.filter fun label => label ∉ met ∧ label ∉ wave
  /-- What the wave is still to meet is in the cell. -/
  wave_subset : wave ⊆ (closure.chart.cell s).labels
  /-- What the next wave is to meet is in the cell. -/
  improved_subset : closure.improved ⊆ (closure.chart.cell s).labels
  /-- The chart is well-formed. -/
  wellFormed : closure.chart.WellFormed

omit [Cost κ] in
/-- The queue after a rule has placed an edge. -/
theorem Queued.place {met wave : List String} {closure : Closure κ n}
    (h : closure.Queued s met wave) (edge : Edge κ) (fired : List Nat) :
    Queued s met wave
      ⟨(closure.chart.place s edge).1, fired, closure.improvedWith edge.label⟩ := by
  have hlabels := Chart.labels_place closure.chart s edge
  have hsub := (closure.chart.grows_place s edge).labels.subset
  refine ⟨?_, fun label hm => hsub (h.wave_subset hm), ?_, h.wellFormed.place s edge⟩
  · rw [hlabels]
    by_cases hin : edge.label ∈ (closure.chart.cell s).labels
    · -- No new label: one that is still to be met by the next wave alone is already among its own.
      rw [if_pos hin, h.labels]
      dsimp only [improvedWith]
      split
      · rfl
      · rename_i hc
        rw [List.contains_iff_mem] at hc
        rw [List.filter_append]
        have hnot : ¬ (edge.label ∉ met ∧ edge.label ∉ wave) := by
          rintro ⟨hmet, hwave⟩
          rw [h.labels, List.mem_append, List.mem_append] at hin
          rcases hin with (hin | hin) | hin
          · exact hmet hin
          · exact hwave (List.mem_of_mem_filter hin)
          · exact hc (List.mem_of_mem_filter hin)
        simp [hnot]
    · -- A new label: the next wave is the first to meet it.
      have hmet : edge.label ∉ met := fun hm => hin (by
        rw [h.labels]
        exact List.mem_append_left _ (List.mem_append_left _ hm))
      have hwave : edge.label ∉ wave := fun hm => hin (h.wave_subset hm)
      have himp : ¬ closure.improved.contains edge.label = true := by
        rw [List.contains_iff_mem]
        exact fun hm => hin (h.improved_subset hm)
      dsimp only [improvedWith]
      rw [if_neg hin, if_neg himp, h.labels, List.filter_append]
      simp [hmet, hwave]
  · intro label hm
    dsimp only [improvedWith] at hm ⊢
    split at hm
    · exact hsub (h.improved_subset hm)
    · rcases List.mem_append.1 hm with hm | hm
      · exact hsub (h.improved_subset hm)
      · obtain rfl := List.mem_singleton.1 hm
        rw [hlabels]
        split
        · assumption
        · exact List.mem_append_right _ (List.mem_singleton.2 rfl)

/-- The queue after a rule has fired. -/
theorem Queued.fire {met wave : List String} {closure : Closure κ n}
    (h : closure.Queued s met wave) (child number : Nat) :
    (closure.fire index s child number).Queued s met wave := by
  by_cases hn : number ∈ closure.fired
  · rw [fire_of_mem hn]
    exact h
  · rcases fire_cases index s hn child with ⟨edge, -, -, hf⟩ | ⟨hf, -⟩
    · rw [hf]
      exact h.place edge _
    · rw [hf]
      exact ⟨h.labels, h.wave_subset, h.improved_subset, h.wellFormed⟩

/-- The queue after several rules have fired. -/
theorem Queued.foldl_fire {met wave : List String} {closure : Closure κ n}
    (h : closure.Queued s met wave) (child : Nat) (numbers : List Nat) :
    (numbers.foldl (Closure.fire index s child) closure).Queued s met wave := by
  induction numbers generalizing closure with
  | nil => exact h
  | cons number rest ih => exact ih (h.fire child number)

omit [Cost κ] in
/-- A label that has been met before changes nothing in the queue. -/
theorem Queued.skip {met rest : List String} {label : String} {closure : Closure κ n}
    (h : closure.Queued s met (label :: rest)) (hl : label ∈ met) :
    closure.Queued s met rest := by
  refine ⟨?_, fun l hm => h.wave_subset (List.mem_cons_of_mem _ hm), h.improved_subset,
    h.wellFormed⟩
  have hwave : (label :: rest).filter (fun l => l ∉ met) = rest.filter fun l => l ∉ met := by
    rw [List.filter_cons, if_neg (by simpa using hl)]
  have himp : closure.improved.filter (fun l => l ∉ met ∧ l ∉ label :: rest) =
      closure.improved.filter fun l => l ∉ met ∧ l ∉ rest := by
    refine List.filter_congr fun l _ => decide_eq_decide.2 ?_
    rw [List.mem_cons, not_or]
    exact ⟨fun ⟨h1, _, h2⟩ => ⟨h1, h2⟩, fun ⟨h1, h2⟩ => ⟨h1, fun he => h1 (he ▸ hl), h2⟩⟩
  rw [h.labels, hwave, himp]

omit [Cost κ] in
/-- A label that is met for the first time is the next one of the cell. -/
theorem Queued.next {met rest : List String} {label : String} {closure : Closure κ n}
    (h : closure.Queued s met (label :: rest)) (hl : label ∉ met) :
    closure.Queued s (met ++ [label]) rest := by
  refine ⟨?_, fun l hm => h.wave_subset (List.mem_cons_of_mem _ hm), h.improved_subset,
    h.wellFormed⟩
  have hwave : (label :: rest).filter (fun l => l ∉ met) =
      label :: rest.filter fun l => l ∉ met := by
    rw [List.filter_cons, if_pos (by simpa using hl)]
  have hrest : rest.filter (fun l => l ∉ met) = rest.filter fun l => l ∉ met ++ [label] := by
    -- The label is met once in the cell, so it does not come again among those still to be met.
    have hnodup := h.wellFormed.nodup s
    rw [h.labels, hwave, List.nodup_append, List.nodup_append, List.nodup_cons] at hnodup
    have hnot : label ∉ rest.filter fun l => l ∉ met := hnodup.1.2.1.1
    refine List.filter_congr fun l hm => decide_eq_decide.2 ?_
    rw [List.mem_append, List.mem_singleton, not_or]
    refine ⟨fun h1 => ⟨h1, fun he => hnot ?_⟩, And.left⟩
    rw [← he]
    exact List.mem_filter.2 ⟨hm, decide_eq_true h1⟩
  have himp : closure.improved.filter (fun l => l ∉ met ∧ l ∉ label :: rest) =
      closure.improved.filter fun l => l ∉ met ++ [label] ∧ l ∉ rest := by
    refine List.filter_congr fun l _ => decide_eq_decide.2 ?_
    rw [List.mem_cons, List.mem_append, List.mem_singleton, not_or, not_or, and_assoc]
  rw [h.labels, hwave, hrest, himp, List.append_assoc met [label]]
  rfl

/-! ## The visits of a wave -/

/-- The closure of a cell as it stands within a wave: the rules over the labels that have been met
have fired and no others, and the chart is what the sweep through those labels makes of it. -/
structure Underway (index : RuleIndex κ) (s : Span n) (start : Chart κ n) (met wave : List String)
    (closure : Closure κ n) : Prop where
  /-- The labels of the cell and where they are met. -/
  queued : closure.Queued s met wave
  /-- The chart. -/
  chart : closure.chart = start.sweep index s met.length
  /-- The rules that have fired. -/
  fired : ∀ number, number ∈ closure.fired ↔ ∃ label ∈ met, number ∈ index.unaryRules label
  /-- No rule has fired twice. -/
  nodup : closure.fired.Nodup

omit [Cost κ] in
/-- A unary rule is over one symbol only. -/
theorem label_eq_of_mem_unaryRules (hi : index.Agrees) {a b : String} {number : Nat}
    (ha : number ∈ index.unaryRules a) (hb : number ∈ index.unaryRules b) : a = b := by
  rw [hi.unary, RuleIndex.mem_numbersOf] at ha hb
  obtain ⟨rule, hr, ha⟩ := ha
  obtain ⟨rule', hr', hb⟩ := hb
  obtain rfl := Option.some.inj (hr.symm.trans hr')
  rw [Rule.isOver_iff] at ha hb
  exact List.head_eq_of_cons_eq (ha.symm.trans hb)

/-- Rules that have all fired do nothing. -/
theorem foldl_fire_of_subset {closure : Closure κ n} {numbers : List Nat}
    (h : numbers ⊆ closure.fired) (child : Nat) :
    numbers.foldl (fire index s child) closure = closure := by
  induction numbers with
  | nil => rfl
  | cons number rest ih =>
    rw [List.foldl_cons, fire_of_mem (h List.mem_cons_self)]
    exact ih fun k hk => h (List.mem_cons_of_mem _ hk)

/-- A visit of a label that has been met does nothing, and one of a new label is the next step of
the sweep. -/
theorem Underway.visit {start : Chart κ n} {met rest : List String} {label : String}
    {closure : Closure κ n} (hi : index.Agrees)
    (h : closure.Underway index s start met (label :: rest)) :
    ∃ met', (closure.visit index s label).Underway index s start met' rest := by
  obtain ⟨child, hchild⟩ := Chart.exists_best? (h.queued.wave_subset List.mem_cons_self)
  obtain ⟨below, hbelow, -⟩ := h.queued.wellFormed.edge hchild
  have hvisit : closure.visit index s label =
      (index.unaryRules label).foldl (Closure.fire index s child) closure := by
    rw [Closure.visit, hchild]
  rw [hvisit]
  by_cases hl : label ∈ met
  · -- The rules over a label that has been met have all fired.
    have hall : index.unaryRules label ⊆ closure.fired := fun number hn =>
      (h.fired number).2 ⟨label, hl, hn⟩
    rw [foldl_fire_of_subset hall]
    exact ⟨met, h.queued.skip hl, h.chart, h.fired, h.nodup⟩
  · -- A rule is over one symbol, so none over a new label has fired over another one.
    have hnew : ∀ number ∈ index.unaryRules label, number ∉ closure.fired := by
      intro number hn hf
      obtain ⟨other, ho, hn'⟩ := (h.fired number).1 hf
      exact hl (label_eq_of_mem_unaryRules hi hn hn' ▸ ho)
    have hnodup : (index.unaryRules label).Nodup := by
      rw [hi.unary]
      exact index.nodup_numbersOf _
    obtain ⟨hchart, hfired⟩ := foldl_fire index s hbelow hnodup hnew
    -- As many labels have been met as stand before this one, so the sweep has come to it.
    have hnext : (closure.chart.cell s).labels[met.length]? = some label := by
      rw [(h.queued.next hl).labels]
      simp
    refine ⟨met ++ [label], (h.queued.next hl).foldl_fire child _, ?_, ?_, ?_⟩
    · rw [List.length_append, List.length_singleton, Chart.sweep_succ, ← h.chart, hchart,
        Chart.climb, hnext]
      dsimp only [Chart.raised]
      rw [hchild]
    · intro number
      simp only [hfired, List.mem_append, List.mem_reverse, List.mem_singleton, h.fired]
      constructor
      · rintro (hn | ⟨x, hx, hn⟩)
        · exact ⟨label, Or.inr rfl, hn⟩
        · exact ⟨x, Or.inl hx, hn⟩
      · rintro ⟨x, hx | rfl, hn⟩
        · exact Or.inr ⟨x, hx, hn⟩
        · exact Or.inl hn
    · rw [hfired]
      exact (List.nodup_reverse.2 hnodup).append h.nodup fun number hn =>
        hnew number (List.mem_reverse.1 hn)

/-- The visits of the rest of a wave. -/
theorem Underway.visits {start : Chart κ n} {met wave : List String} {closure : Closure κ n}
    (hi : index.Agrees) (h : closure.Underway index s start met wave) :
    ∃ met', (wave.foldl (Closure.visit index s) closure).Underway index s start met' [] := by
  induction wave generalizing met closure with
  | nil => exact ⟨met, h⟩
  | cons label rest ih =>
    obtain ⟨met', h'⟩ := h.visit hi
    exact ih h'

/-- One wave. -/
theorem Underway.wave {start : Chart κ n} {met : List String} {closure : Closure κ n}
    (hi : index.Agrees) (h : closure.Underway index s start met []) :
    ∃ met', (closure.wave index s).Underway index s start met' [] := by
  have hstart : Underway index s start met closure.improved { closure with improved := [] } := by
    refine ⟨⟨?_, h.queued.improved_subset, List.nil_subset _, h.queued.wellFormed⟩, h.chart,
      h.fired, h.nodup⟩
    simpa using h.queued.labels
  exact hstart.visits hi

/-! ## How many waves there are -/

/-- From one closure to a later one, either more rules have fired or no label has been improved. -/
def Advances (a b : Closure κ n) : Prop :=
  a.fired.length < b.fired.length ∨ a.fired.length = b.fired.length ∧ b.improved = a.improved

omit [Cost κ] in
/-- Advances go on. -/
theorem Advances.trans {a b c : Closure κ n} (h : a.Advances b) (h' : b.Advances c) :
    a.Advances c := by
  rcases h with h | ⟨h, hs⟩ <;> rcases h' with h' | ⟨h', hs'⟩
  · exact Or.inl (h.trans h')
  · exact Or.inl (h' ▸ h)
  · exact Or.inl (h ▸ h')
  · exact Or.inr ⟨h.trans h', hs'.trans hs⟩

/-- No label is improved unless a rule fires. -/
theorem advances_fire (closure : Closure κ n) (child number : Nat) :
    closure.Advances (closure.fire index s child number) := by
  by_cases hn : number ∈ closure.fired
  · rw [fire_of_mem hn]
    exact Or.inr ⟨rfl, rfl⟩
  · left
    rw [(fire_of_not_mem index s hn child).2]
    exact Nat.lt_succ_self _

/-- No label is improved by several rules unless one of them fires. -/
theorem advances_foldl_fire (closure : Closure κ n) (child : Nat) (numbers : List Nat) :
    closure.Advances (numbers.foldl (fire index s child) closure) := by
  induction numbers generalizing closure with
  | nil => exact Or.inr ⟨rfl, rfl⟩
  | cons number rest ih => exact (advances_fire closure child number).trans (ih _)

/-- No label is improved by visits unless a rule fires. -/
theorem advances_foldl_visit (index : RuleIndex κ) (s : Span n) (closure : Closure κ n)
    (wave : List String) :
    closure.Advances (wave.foldl (visit index s) closure) := by
  induction wave generalizing closure with
  | nil => exact Or.inr ⟨rfl, rfl⟩
  | cons label rest ih =>
    refine Advances.trans (b := closure.visit index s label) ?_ (ih _)
    unfold visit
    split
    · exact Or.inr ⟨rfl, rfl⟩
    · exact advances_foldl_fire closure _ _

/-- No more rules have fired than there are unary ones. -/
theorem Underway.length_fired_le {start : Chart κ n} {met wave : List String}
    {closure : Closure κ n} (hi : index.Agrees)
    (h : closure.Underway index s start met wave) : closure.fired.length ≤ index.unaryCount := by
  have hsub : closure.fired ⊆ index.numbersOf Rule.isUnary := by
    intro number hn
    obtain ⟨label, -, hl⟩ := (h.fired number).1 hn
    rw [hi.unary, RuleIndex.mem_numbersOf] at hl
    obtain ⟨rule, hr, hover⟩ := hl
    refine RuleIndex.mem_numbersOf.2 ⟨rule, hr, ?_⟩
    rw [Rule.isUnary, Side.size, Rule.isOver_iff.1 hover]
    rfl
  calc closure.fired.length
      ≤ (index.numbersOf Rule.isUnary).length := (List.subperm_of_subset h.nodup hsub).length_le
    _ = index.unaryCount := index.length_numbersOf _

/-- If there are as many waves left as rules that have not fired, and one more, then the last one
improves nothing. -/
theorem Underway.waves {start : Chart κ n} {met : List String} {closure : Closure κ n}
    (hi : index.Agrees) (h : closure.Underway index s start met []) (count : Nat)
    (hcount : index.unaryCount + 1 ≤ count + closure.fired.length ∨ closure.improved = []) :
    ∃ met', (Closure.waves index s count closure).Underway index s start met' [] ∧
      (Closure.waves index s count closure).improved = [] := by
  induction count generalizing met closure with
  | zero =>
    -- No waves are left, and there are fewer unary rules than would have had to fire.
    refine ⟨met, h, hcount.resolve_left fun hle => ?_⟩
    have hfired := h.length_fired_le hi
    omega
  | succ count ih =>
    rw [Closure.waves]
    by_cases himp : closure.improved = []
    · rw [himp, List.isEmpty_nil, if_pos rfl]
      exact ⟨met, h, himp⟩
    · rw [List.isEmpty_eq_false_iff.2 himp, if_neg Bool.false_ne_true]
      obtain ⟨met', h'⟩ := h.wave hi
      refine ih h' ?_
      -- Either a rule has fired, which leaves one fewer to fire, or there is nothing left to do.
      rcases advances_foldl_visit index s { closure with improved := [] }
          closure.improved with hmore | ⟨-, hnone⟩
      · left
        have hle := hcount.resolve_right himp
        have hlt : closure.fired.length < (closure.wave index s).fired.length := hmore
        omega
      · exact Or.inr hnone

/-- There are waves enough: the last one improves nothing. -/
theorem Underway.waves_start {chart : Chart κ n} (hi : index.Agrees) (hw : chart.WellFormed)
    (s : Span n) :
    let last := Closure.waves index s (index.unaryCount + 1) ⟨chart, [], (chart.cell s).labels⟩
    ∃ met, last.Underway index s chart met [] ∧ last.improved = [] := by
  have hstart : Underway index s chart [] [] ⟨chart, [], (chart.cell s).labels⟩ := by
    refine ⟨⟨?_, List.nil_subset _, fun _ => id, hw⟩, rfl, ?_, List.nodup_nil⟩
    · simp
    · simp
  exact hstart.waves hi (index.unaryCount + 1) (Or.inl (by simp))

end Closure

/-- The closure of a cell under the unary rules comes to one sweep through its labels, those that it
has at the end. -/
theorem Chart.closeUnary_eq_sweep {index : RuleIndex κ} (hi : index.Agrees) {chart : Chart κ n}
    (hw : chart.WellFormed) (s : Span n) :
    chart.closeUnary index s =
      chart.sweep index s ((chart.closeUnary index s).cell s).labels.length := by
  obtain ⟨met, h, hdone⟩ := Closure.Underway.waves_start hi hw s
  -- In the end no label waits for another wave, so all labels of the cell have been met.
  have hlabels : ((chart.closeUnary index s).cell s).labels = met := by
    have hq := h.queued.labels
    rw [hdone] at hq
    exact hq.trans (by simp)
  rw [hlabels]
  exact h.chart

end Constituency
