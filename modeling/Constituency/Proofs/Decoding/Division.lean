import Constituency.Decoding
import Constituency.Proofs.Chart.Offers
import Constituency.Proofs.RuleIndex

/-!
# The rules that apply at a division

A cell lists for each of its labels the binary rules that can use it, no rule twice, so probing a
list for a rule finds the best edge of the label that the rule can use (`Indexed.edgeOf?_left`,
`Indexed.edgeOf?_right`). The rules that are listed on both sides of a division are those whose two
symbols are labels, one on each side (`isMatch_iff`), and they are what is found there
(`mem_applicable`). Each is found once, whichever list is gone through (`matchesFromLeft_perm`). The
edges of all divisions of a span can be made before any of them is offered, as an offer to the span
itself changes nothing in its parts (`foldl_divide`).
-/

namespace Constituency

variable {κ : Type} {n : Nat} {index : RuleIndex κ}

/-- Probing a list that has no rule twice finds the edge with which the rule is listed. -/
theorem Use.edgeOf?_eq_some_iff {uses : List Use} (h : (uses.map Use.rule).Nodup)
    {number edge : Nat} : Use.edgeOf? uses number = some edge ↔ ⟨number, edge⟩ ∈ uses := by
  have hnumber : ∀ {use : Use}, uses.find? (fun use => use.rule == number) = some use →
      use.rule = number := fun hfound => by simpa using List.find?_some hfound
  rw [Use.edgeOf?, Option.map_eq_some_iff]
  constructor
  · rintro ⟨use, hfound, rfl⟩
    obtain rfl := hnumber hfound
    exact List.mem_of_find?_eq_some hfound
  · intro hmem
    have hsome : (uses.find? fun use => use.rule == number).isSome :=
      List.find?_isSome.2 ⟨_, hmem, beq_self_eq_true number⟩
    obtain ⟨use, hfound⟩ := Option.isSome_iff_exists.1 hsome
    -- What is found has the same number, so it is that entry.
    have huse := List.inj_on_of_nodup_map h (List.mem_of_find?_eq_some hfound) hmem (hnumber hfound)
    exact ⟨use, hfound, congrArg Use.edge huse⟩

/-- A cell lists a rule with an edge if the rule is one for the label whose best edge that is. -/
theorem Cell.mem_uses {cell : Cell} (h : cell.labels.Nodup) {rulesOf : String → List Nat}
    {use : Use} :
    use ∈ cell.uses rulesOf ↔
      ∃ label, cell.best.find? label = some use.edge ∧ use.rule ∈ rulesOf label := by
  simp only [Cell.uses, List.mem_flatMap, List.mem_map, Prod.exists]
  constructor
  · rintro ⟨label, edge, hentry, number, hnumber, rfl⟩
    exact ⟨label, (OrderedMap.mem_entries_iff h).1 hentry, hnumber⟩
  · rintro ⟨label, hbest, hrule⟩
    exact ⟨label, use.edge, (OrderedMap.mem_entries_iff h).2 hbest, use.rule, hrule, rfl⟩

/-- A cell lists no rule twice if the rules of each label are those of a test, and no rule passes
the tests of two labels. -/
theorem Cell.nodup_map_rule_uses {cell : Cell} (h : cell.labels.Nodup)
    {rulesOf : String → List Nat} {test : String → Rule κ → Bool}
    (hrules : ∀ label, rulesOf label = index.numbersOf (test label))
    (hunique : ∀ {label other : String} {rule : Rule κ}, test label rule = true →
      test other rule = true → label = other) :
    ((cell.uses rulesOf).map Use.rule).Nodup := by
  have hflat : (cell.uses rulesOf).map Use.rule = cell.labels.flatMap rulesOf := by
    rw [Cell.uses, List.map_flatMap, Cell.labels, OrderedMap.keys, List.flatMap_map]
    refine List.flatMap_congr fun entry _ => ?_
    rw [List.map_map]
    exact List.map_id _
  rw [hflat, List.nodup_flatMap]
  refine ⟨fun label _ => hrules label ▸ index.nodup_numbersOf _, h.imp fun hne number hn hn' => ?_⟩
  rw [hrules, RuleIndex.mem_numbersOf] at hn hn'
  obtain ⟨rule, hrule, htest⟩ := hn
  obtain ⟨rule', hrule', htest'⟩ := hn'
  obtain rfl := Option.some.inj (hrule.symm.trans hrule')
  exact hne (hunique htest htest')

namespace Chart

variable {chart : Chart κ n} {s left right : Span n}

/-- The cell of a span lists the binary rules that can use its labels. -/
def Indexed (chart : Chart κ n) (index : RuleIndex κ) (s : Span n) : Prop :=
  (chart.cell s).indexed index = chart.cell s

/-- The rules that are listed as those whose first symbol is a label of the cell. -/
theorem Indexed.mem_left (h : chart.Indexed index s) (hi : index.Agrees)
    (hw : chart.WellFormed) {use : Use} :
    use ∈ (chart.cell s).left ↔
      ∃ rule first second, index.rule? use.rule = some rule ∧
        rule.rhs.symbols = [first, second] ∧ chart.best? s first = some use.edge := by
  have hleft : (chart.cell s).left = (chart.cell s).uses index.firstRules :=
    (congrArg Cell.left h).symm
  rw [hleft, Cell.mem_uses (hw.nodup s)]
  simp only [hi.first, RuleIndex.mem_numbersOf, Rule.hasFirst_iff]
  constructor
  · rintro ⟨first, hbest, rule, hr, second, hrhs⟩
    exact ⟨rule, first, second, hr, hrhs, hbest⟩
  · rintro ⟨rule, first, second, hr, hrhs, hbest⟩
    exact ⟨first, hbest, rule, hr, second, hrhs⟩

/-- No rule is listed twice as one whose first symbol is a label of the cell. -/
theorem Indexed.nodup_left (h : chart.Indexed index s) (hi : index.Agrees)
    (hw : chart.WellFormed) : ((chart.cell s).left.map Use.rule).Nodup := by
  have hleft : (chart.cell s).left = (chart.cell s).uses index.firstRules :=
    (congrArg Cell.left h).symm
  rw [hleft]
  exact Cell.nodup_map_rule_uses (hw.nodup s) hi.first Rule.hasFirst_inj

/-- The rules that are listed as those whose second symbol is a label of the cell. -/
theorem Indexed.mem_right (h : chart.Indexed index s) (hi : index.Agrees)
    (hw : chart.WellFormed) {use : Use} :
    use ∈ (chart.cell s).right ↔
      ∃ rule first second, index.rule? use.rule = some rule ∧
        rule.rhs.symbols = [first, second] ∧ chart.best? s second = some use.edge := by
  have hright : (chart.cell s).right = (chart.cell s).uses index.secondRules :=
    (congrArg Cell.right h).symm
  rw [hright, Cell.mem_uses (hw.nodup s)]
  simp only [hi.second, RuleIndex.mem_numbersOf, Rule.hasSecond_iff]
  constructor
  · rintro ⟨second, hbest, rule, hr, first, hrhs⟩
    exact ⟨rule, first, second, hr, hrhs, hbest⟩
  · rintro ⟨rule, first, second, hr, hrhs, hbest⟩
    exact ⟨second, hbest, rule, hr, first, hrhs⟩

/-- No rule is listed twice as one whose second symbol is a label of the cell. -/
theorem Indexed.nodup_right (h : chart.Indexed index s) (hi : index.Agrees)
    (hw : chart.WellFormed) : ((chart.cell s).right.map Use.rule).Nodup := by
  have hright : (chart.cell s).right = (chart.cell s).uses index.secondRules :=
    (congrArg Cell.right h).symm
  rw [hright]
  exact Cell.nodup_map_rule_uses (hw.nodup s) hi.second Rule.hasSecond_inj

/-- Probing the list of rules whose first symbol is a label of the cell. -/
theorem Indexed.edgeOf?_left (h : chart.Indexed index s) (hi : index.Agrees)
    (hw : chart.WellFormed) {number edge : Nat} :
    Use.edgeOf? (chart.cell s).left number = some edge ↔
      ∃ rule first second, index.rule? number = some rule ∧
        rule.rhs.symbols = [first, second] ∧ chart.best? s first = some edge := by
  rw [Use.edgeOf?_eq_some_iff (h.nodup_left hi hw), h.mem_left hi hw]

/-- Probing the list of rules whose second symbol is a label of the cell. -/
theorem Indexed.edgeOf?_right (h : chart.Indexed index s) (hi : index.Agrees)
    (hw : chart.WellFormed) {number edge : Nat} :
    Use.edgeOf? (chart.cell s).right number = some edge ↔
      ∃ rule first second, index.rule? number = some rule ∧
        rule.rhs.symbols = [first, second] ∧ chart.best? s second = some edge := by
  rw [Use.edgeOf?_eq_some_iff (h.nodup_right hi hw), h.mem_right hi hw]

/-- The matches at a division that are found by going through the rules listed on the left. -/
def matchesFromLeft (l r : Cell) : List Match :=
  l.left.filterMap fun use =>
    (Use.edgeOf? r.right use.rule).map fun other => ⟨use.rule, use.edge, other⟩

/-- The matches at a division that are found by going through the rules listed on the right. -/
def matchesFromRight (l r : Cell) : List Match :=
  r.right.filterMap fun use =>
    (Use.edgeOf? l.left use.rule).map fun other => ⟨use.rule, other, use.edge⟩

/-- The shorter of the two lists is gone through; where there is no cell, none is found either
way. -/
theorem applicable_eq (chart : Chart κ n) (left right : Span n) :
    chart.applicable left right =
      if (chart.cell left).left.length ≤ (chart.cell right).right.length then
        matchesFromLeft (chart.cell left) (chart.cell right)
      else matchesFromRight (chart.cell left) (chart.cell right) := by
  unfold applicable cell
  cases chart.cell? left with
  | none => rfl
  | some l =>
    cases chart.cell? right with
    | none =>
      -- The list on the right is empty, so the one that is gone through is.
      show [] = if l.left.length ≤ 0 then matchesFromLeft l .empty else []
      split
      · rename_i hle
        rw [matchesFromLeft, List.eq_nil_of_length_eq_zero (Nat.le_zero.1 hle)]
        rfl
      · rfl
    | some r => rfl

/-- Going through the list on the left finds the rules that are listed on both sides. -/
theorem mem_matchesFromLeft {l r : Cell} (h : (r.right.map Use.rule).Nodup) {m : Match} :
    m ∈ matchesFromLeft l r ↔ ⟨m.rule, m.left⟩ ∈ l.left ∧ ⟨m.rule, m.right⟩ ∈ r.right := by
  simp only [matchesFromLeft, List.mem_filterMap, Option.map_eq_some_iff,
    Use.edgeOf?_eq_some_iff h]
  constructor
  · rintro ⟨use, huse, other, hother, rfl⟩
    exact ⟨huse, hother⟩
  · rintro ⟨hl, hr⟩
    exact ⟨_, hl, _, hr, rfl⟩

/-- Going through the list on the right finds the rules that are listed on both sides. -/
theorem mem_matchesFromRight {l r : Cell} (h : (l.left.map Use.rule).Nodup) {m : Match} :
    m ∈ matchesFromRight l r ↔ ⟨m.rule, m.left⟩ ∈ l.left ∧ ⟨m.rule, m.right⟩ ∈ r.right := by
  simp only [matchesFromRight, List.mem_filterMap, Option.map_eq_some_iff,
    Use.edgeOf?_eq_some_iff h]
  constructor
  · rintro ⟨use, huse, other, hother, rfl⟩
    exact ⟨hother, huse⟩
  · rintro ⟨hl, hr⟩
    exact ⟨_, hr, _, hl, rfl⟩

/-- What is found for different rules is found for different rules. -/
theorem nodup_map_rule_filterMap {uses : List Use} {found? : Use → Option Match}
    (h : (uses.map Use.rule).Nodup)
    (hfound : ∀ {use : Use} {m : Match}, found? use = some m → m.rule = use.rule) :
    ((uses.filterMap found?).map Match.rule).Nodup := by
  refine List.pairwise_map.2 ((List.pairwise_map.1 h).filterMap _ fun use other hne => ?_)
  intro m hm m' hm'
  rw [hfound hm, hfound hm']
  exact hne

/-- Going through the list on the left finds each rule once. -/
theorem nodup_matchesFromLeft {l : Cell} (h : (l.left.map Use.rule).Nodup) (r : Cell) :
    ((matchesFromLeft l r).map Match.rule).Nodup := by
  refine nodup_map_rule_filterMap h fun hm => ?_
  obtain ⟨other, -, rfl⟩ := Option.map_eq_some_iff.1 hm
  rfl

/-- Going through the list on the right finds each rule once. -/
theorem nodup_matchesFromRight (l : Cell) {r : Cell} (h : (r.right.map Use.rule).Nodup) :
    ((matchesFromRight l r).map Match.rule).Nodup := by
  refine nodup_map_rule_filterMap h fun hm => ?_
  obtain ⟨other, -, rfl⟩ := Option.map_eq_some_iff.1 hm
  rfl

/-- If neither list has a rule twice, the same is found whichever of them is gone through. -/
theorem matchesFromLeft_perm {l r : Cell} (hl : (l.left.map Use.rule).Nodup)
    (hr : (r.right.map Use.rule).Nodup) : (matchesFromLeft l r).Perm (matchesFromRight l r) := by
  refine (List.perm_ext_iff_of_nodup (nodup_matchesFromLeft hl r).of_map
    (nodup_matchesFromRight l hr).of_map).2 fun m => ?_
  rw [mem_matchesFromLeft hr, mem_matchesFromRight hl]

/-- A match at a division: the rule has two symbols, and these are labels of the two sides, on the
best edges of which the rule applies. -/
def IsMatch (chart : Chart κ n) (index : RuleIndex κ) (left right : Span n) (m : Match) : Prop :=
  ∃ rule first second, index.rule? m.rule = some rule ∧ rule.rhs.symbols = [first, second] ∧
    chart.best? left first = some m.left ∧ chart.best? right second = some m.right

/-- The matches are the rules that are listed on both sides. -/
theorem isMatch_iff (hi : index.Agrees) (hw : chart.WellFormed) (hl : chart.Indexed index left)
    (hr : chart.Indexed index right) {m : Match} :
    chart.IsMatch index left right m ↔
      ⟨m.rule, m.left⟩ ∈ (chart.cell left).left ∧
        ⟨m.rule, m.right⟩ ∈ (chart.cell right).right := by
  rw [hl.mem_left hi hw, hr.mem_right hi hw]
  constructor
  · rintro ⟨rule, first, second, hrule, hrhs, hfirst, hsecond⟩
    exact ⟨⟨rule, first, second, hrule, hrhs, hfirst⟩, rule, first, second, hrule, hrhs, hsecond⟩
  · rintro ⟨⟨rule, first, second, hrule, hrhs, hfirst⟩, rule', first', second', hrule', hrhs',
      hsecond⟩
    -- A number is that of one rule, and so the two symbols are those of one rule.
    obtain rfl := Option.some.inj (hrule.symm.trans hrule')
    obtain ⟨rfl, hsymbols⟩ := List.cons.inj (hrhs.symm.trans hrhs')
    obtain ⟨rfl, -⟩ := List.cons.inj hsymbols
    exact ⟨rule, first, second, hrule, hrhs, hfirst, hsecond⟩

/-- What applies at a division: the rules whose two symbols are labels of the two sides, with the
best edges of these. -/
theorem mem_applicable (hi : index.Agrees) (hw : chart.WellFormed)
    (hl : chart.Indexed index left) (hr : chart.Indexed index right) {m : Match} :
    m ∈ chart.applicable left right ↔ chart.IsMatch index left right m := by
  rw [applicable_eq, isMatch_iff hi hw hl hr]
  split
  · exact mem_matchesFromLeft (hr.nodup_right hi hw)
  · exact mem_matchesFromRight (hl.nodup_left hi hw)

variable [Cost κ]

/-- The edges that the rules make at a division. -/
def joined (chart : Chart κ n) (index : RuleIndex κ) (left right : Span n) : List (Edge κ) :=
  (chart.applicable left right).filterMap (chart.combined? index)

/-- The edges that the rules make at a division are those over the best edges of the two sides. -/
theorem mem_joined (hi : index.Agrees) (hw : chart.WellFormed) (hl : chart.Indexed index left)
    (hr : chart.Indexed index right) {edge : Edge κ} :
    edge ∈ chart.joined index left right ↔
      ∃ rule label first second a b, rule ∈ index.rules ∧ rule.label? = some label ∧
        rule.rhs.symbols = [first, second] ∧ chart.best? left first = some a ∧
        chart.best? right second = some b ∧
        edge = .binary label (rule.cost + chart.costOf a + chart.costOf b) a b := by
  simp only [joined, List.mem_filterMap, mem_applicable hi hw hl hr, combined?, Option.bind_eq_bind,
    Option.bind_eq_some_iff, Option.pure_def, Option.some.injEq]
  constructor
  · rintro ⟨m, ⟨rule, first, second, hrule, hrhs, ha, hb⟩, rule', hrule', label, hlabel, rfl⟩
    obtain rfl := Option.some.inj (hrule.symm.trans hrule')
    exact ⟨rule, label, first, second, m.left, m.right, RuleIndex.mem_rules_of_rule? hrule, hlabel,
      hrhs, ha, hb, rfl⟩
  · rintro ⟨rule, label, first, second, a, b, hrule, hlabel, hrhs, ha, hb, rfl⟩
    obtain ⟨number, hnumber⟩ := RuleIndex.exists_rule? hrule
    exact ⟨⟨number, a, b⟩, ⟨rule, first, second, hnumber, hrhs, ha, hb⟩, rule, hnumber, label,
      hlabel, rfl⟩

/-- What the rules make at a division does not change when the chart grows elsewhere. -/
theorem Grows.joined_eq {next : Chart κ n} (h : chart.Grows s next) (hi : index.Agrees)
    (hw : chart.WellFormed) (hl : chart.Indexed index left) (hr : chart.Indexed index right)
    (hleft : left ≠ s) (hright : right ≠ s) :
    next.joined index left right = chart.joined index left right := by
  have happlicable : next.applicable left right = chart.applicable left right := by
    rw [applicable, applicable, h.cell hleft, h.cell hright]
  rw [joined, joined, happlicable]
  refine List.filterMap_congr fun m hm => ?_
  obtain ⟨rule, first, second, -, -, ha, hb⟩ := (mem_applicable hi hw hl hr).1 hm
  obtain ⟨edge, he, -⟩ := hw.edge ha
  obtain ⟨edge', he', -⟩ := hw.edge hb
  rw [combined?, combined?, h.costOf_eq he, h.costOf_eq he']

/-- Going through divisions of a span offers it the edges that the rules make at them. -/
theorem foldl_divide (hi : index.Agrees) (hw : chart.WellFormed) {parts : List (Span n × Span n)}
    (hparts : ∀ p ∈ parts, p.1 ≠ s ∧ p.2 ≠ s ∧ chart.Indexed index p.1 ∧ chart.Indexed index p.2)
    {next : Chart κ n} (h : chart.Grows s next) :
    parts.foldl (divide index s) next =
      next.offerAll s (parts.flatMap fun p => chart.joined index p.1 p.2) := by
  induction parts generalizing next with
  | nil => rfl
  | cons p rest ih =>
    obtain ⟨hleft, hright, hl, hr⟩ := hparts p List.mem_cons_self
    have hdivide : divide index s next p = next.offerAll s (chart.joined index p.1 p.2) := by
      rw [← h.joined_eq hi hw hl hr hleft hright]
      rfl
    rw [List.foldl_cons, hdivide, List.flatMap_cons, offerAll_append]
    exact ih (fun q hq => hparts q (List.mem_cons_of_mem _ hq)) (h.trans (grows_offerAll _ s _))

end Chart

end Constituency
