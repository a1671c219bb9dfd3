import Constituency.Proofs.Decoding.Completeness

/-!
# The recurrence behind the chart

A span of several words takes its labels from its divisions: a label costs there what the cheapest
rule for it does, together with the best edges of the two parts (`Combination`). The decoder does
not try all rules on all pairs of labels but goes through the rules that one of the parts lists and
probes the list of the other (`matchesFromLeft`, `matchesFromRight`). Both lists are up to date by
then, so it finds the same, each match once (`findsEach`), and before the unary rules come in the
cell holds what the recurrence asks for (`byRecurrence`).

The cells of the parts are finished by then and stay as they are until the end (`best?_fill`). Only
the order of the costs matters here: sums need not be compared as their parts are.
-/

namespace Constituency

namespace Chart

variable {κ : Type} [Cost κ] {n : Nat}

/-! ## What stays while longer spans are filled -/

section Growth

variable {index : RuleIndex κ} {chart : Chart κ n}

/-- Going through divisions of a span makes a chart grow, which stays well-formed. -/
theorem grows_foldl_divide (index : RuleIndex κ) (hw : chart.WellFormed) (s : Span n)
    (parts : List (Span n × Span n)) :
    chart.Grows s (parts.foldl (divide index s) chart) ∧
      (parts.foldl (divide index s) chart).WellFormed := by
  induction parts generalizing chart with
  | nil => exact ⟨Grows.refl s chart, hw⟩
  | cons p rest ih =>
    have hdivide : divide index s chart p = chart.offerAll s (chart.joined index p.1 p.2) := rfl
    rw [List.foldl_cons, hdivide]
    obtain ⟨hgrows, hwell⟩ := ih (hw.offerAll s (chart.joined index p.1 p.2))
    exact ⟨(grows_offerAll chart s _).trans hgrows, hwell⟩

/-- Filling a span makes a chart grow, which stays well-formed. -/
theorem grows_combine (hi : index.Agrees) (hw : chart.WellFormed) (s : Span n) :
    chart.Grows s (chart.combine index s) ∧ (chart.combine index s).WellFormed := by
  obtain ⟨hgrows, hwell⟩ := grows_foldl_divide index hw s s.splits
  exact ⟨hgrows.trans (grows_finish hi hwell s), hwell.finish hi s⟩

/-- While spans are filled, edges keep their numbers and all other cells stay as they are. -/
theorem foldl_combine_keeps (hi : index.Agrees) (hw : chart.WellFormed) (spans : List (Span n)) :
    (∀ {number : Nat} {edge : Edge κ}, chart.edge? number = some edge →
      (spans.foldl (combine index) chart).edge? number = some edge) ∧
    ∀ t, t ∉ spans → (spans.foldl (combine index) chart).cell? t = chart.cell? t := by
  induction spans generalizing chart with
  | nil => exact ⟨id, fun _ _ => rfl⟩
  | cons s rest ih =>
    obtain ⟨hgrows, hwell⟩ := grows_combine hi hw s
    obtain ⟨hedge, hcell⟩ := ih hwell
    refine ⟨fun he => hedge (hgrows.edge he), fun t ht => ?_⟩
    rw [List.mem_cons, not_or] at ht
    exact (hcell t ht.2).trans (hgrows.cell ht.1)

end Growth

/-! ## The turn of a span -/

/-- The chart of a sentence when a span of several words has its turn: those before it in the list
have been filled. -/
def reached (index : RuleIndex κ) (words : List (String × List (Candidate κ)))
    (s : Span words.length) : Chart κ words.length :=
  s.preceding.foldl (combine index) (seeded index words)

/-- The chart after all divisions of the span have been gone through; its cell has not been closed
under the unary rules. -/
def divided (index : RuleIndex κ) (words : List (String × List (Candidate κ)))
    (s : Span words.length) : Chart κ words.length :=
  s.splits.foldl (divide index s) (reached index words s)

/-- The edges that are offered to the span at its divisions. -/
def offers (index : RuleIndex κ) (words : List (String × List (Candidate κ)))
    (s : Span words.length) : List (Edge κ) :=
  s.splits.flatMap fun p => (reached index words s).joined index p.1 p.2

/-- In the end, the span and those after it have been filled. -/
theorem fill_eq_resumed (index : RuleIndex κ) (words : List (String × List (Candidate κ)))
    {s : Span words.length} (hs : 1 < s.length) :
    fill index words = (s :: s.following).foldl (combine index) (reached index words s) := by
  rw [fill_eq_foldl, reached, ← List.foldl_append, ← Span.several_eq hs]

/-! ## The recurrence -/

/-- A way to make a label over a span, and its cost: a division, a rule for the label over two
symbols, and the best edges of these over the two parts. -/
inductive Combination (chart : Chart κ n) (index : RuleIndex κ) (s : Span n) (label : String) :
    κ → Prop
  /-- The cost of the rule and of the two edges. -/
  | intro {left right : Span n} {rule : Rule κ} {first second : String} {a b : Nat}
      (split : (left, right) ∈ s.splits) (mem : rule ∈ index.rules)
      (lhs : rule.lhs.symbols = [label]) (rhs : rule.rhs.symbols = [first, second])
      (left_best : chart.best? left first = some a)
      (right_best : chart.best? right second = some b) :
      Combination chart index s label (rule.cost + chart.costOf a + chart.costOf b)

/-- At a division the rules are found that apply to the finished cells of the parts, with the best
edges there; each is found once, whichever list is gone through and whichever is probed. -/
structure FindsEach (chart final : Chart κ n) (index : RuleIndex κ) (left right : Span n) :
    Prop where
  /-- The list on the left has the rules whose first symbol is a label of the finished cell. -/
  left_iff : ∀ number edge, Use.edgeOf? (chart.cell left).left number = some edge ↔
    ∃ rule first second, index.rule? number = some rule ∧ rule.rhs.symbols = [first, second] ∧
      final.best? left first = some edge
  /-- The list on the right has the rules whose second symbol is a label of the finished cell. -/
  right_iff : ∀ number edge, Use.edgeOf? (chart.cell right).right number = some edge ↔
    ∃ rule first second, index.rule? number = some rule ∧ rule.rhs.symbols = [first, second] ∧
      final.best? right second = some edge
  /-- What is found. -/
  mem_iff : ∀ m, m ∈ chart.applicable left right ↔ final.IsMatch index left right m
  /-- No rule is found twice. -/
  nodup : ((chart.applicable left right).map Match.rule).Nodup
  /-- The list on the left leads to the same. -/
  fromLeft : (matchesFromLeft (chart.cell left) (chart.cell right)).Perm
    (chart.applicable left right)
  /-- The list on the right leads to the same. -/
  fromRight : (matchesFromRight (chart.cell left) (chart.cell right)).Perm
    (chart.applicable left right)

/-- A span has been filled by the recurrence: its cell after all divisions, and before the unary
rules, is what the recurrence makes of the finished cells of its parts. -/
structure ByRecurrence (index : RuleIndex κ) (words : List (String × List (Candidate κ)))
    (s : Span words.length) : Prop where
  /-- The cell is finished next, and then the spans after it are filled. -/
  resumed : fill index words =
    s.following.foldl (combine index) ((divided index words s).finish index s)
  /-- The labels are those that can be made. -/
  labels : ∀ label, label ∈ ((divided index words s).cell s).labels ↔
    ∃ cost, (fill index words).Combination index s label cost
  /-- The best edge of a label costs what the cheapest way to make it does. -/
  least : ∀ label number, (divided index words s).best? s label = some number →
    (fill index words).Combination index s label ((divided index words s).costOf number) ∧
    ∀ cost, (fill index words).Combination index s label cost →
      Cost.AtMost ((divided index words s).costOf number) cost
  /-- Whenever a division has its turn, what is found there is what applies. -/
  found : ∀ earlier left right later, s.splits = earlier ++ (left, right) :: later →
    (earlier.foldl (divide index s) (reached index words s)).FindsEach (fill index words) index
      left right

/-! ## The chart satisfies it -/

omit [Cost κ] in
/-- What applies is found at a division if the cells of both parts are finished and list the rules
that can use their labels. -/
theorem findsEach_of_indexed {chart final : Chart κ n} {index : RuleIndex κ} {left right : Span n}
    (hi : index.Agrees) (hw : chart.WellFormed) (hl : chart.Indexed index left)
    (hr : chart.Indexed index right)
    (hleft : ∀ label, final.best? left label = chart.best? left label)
    (hright : ∀ label, final.best? right label = chart.best? right label) :
    chart.FindsEach final index left right := by
  -- Neither list has a rule twice.
  have hnodupl := hl.nodup_left hi hw
  have hnodupr := hr.nodup_right hi hw
  have hperm := matchesFromLeft_perm hnodupl hnodupr
  refine ⟨fun number edge => ?_, fun number edge => ?_, fun m => ?_, ?_, ?_, ?_⟩
  · simp only [hl.edgeOf?_left hi hw, hleft]
  · simp only [hr.edgeOf?_right hi hw, hright]
  · rw [mem_applicable hi hw hl hr]
    simp only [IsMatch, hleft, hright]
  all_goals
    rw [applicable_eq]
    split
  · exact nodup_matchesFromLeft hnodupl _
  · exact nodup_matchesFromRight _ hnodupr
  · exact List.Perm.refl _
  · exact hperm
  · exact hperm.symm
  · exact List.Perm.refl _

section

variable {g : Grammar κ} {unknown : UnknownWords κ} {tagged : List (String × List (Candidate κ))}
  {s : Span tagged.length} (htag : ∀ p ∈ tagged, g.tag unknown p.1 = .ok p.2) (hs : 1 < s.length)

include htag hs

/-- When a span has its turn, all shorter spans have been filled, and neither it nor any span after
it has been. -/
theorem filled_reached :
    (reached (.ofGrammar g) tagged s).Filled g unknown (tagged.map Prod.fst)
      fun t => t.length = 1 ∨ t ∈ s.preceding :=
  (filled_seeded htag).several (List.length_map _) _ (s :: s.following) (Span.several_eq hs)

/-- The cell of the span has not been made when it has its turn. -/
theorem cell?_reached : (reached (.ofGrammar g) tagged s).cell? s = none := by
  refine (filled_reached htag hs).fresh s ?_
  rintro (hone | hmem)
  · omega
  · exact (Span.turn hs).not_mem_front hmem

/-- The cells of shorter spans are finished: they stay as they are until the end. -/
theorem best?_fill {t : Span tagged.length} (hlt : t.length < s.length) (label : String) :
    (fill (.ofGrammar g) tagged).best? t label =
      (reached (.ofGrammar g) tagged s).best? t label := by
  have hturn := Span.turn hs
  have hlater : t ∉ s :: s.following := by
    rw [List.mem_cons, not_or]
    refine ⟨fun he => ?_, fun hmem => ?_⟩
    · exact absurd (he ▸ hlt) (Nat.lt_irrefl _)
    · exact absurd (hturn.le_of_mem_back hmem) (Nat.not_le.2 hlt)
  rw [best?, best?, cell, cell, fill_eq_resumed _ _ hs,
    (foldl_combine_keeps (RuleIndex.agrees_ofGrammar g) (filled_reached htag hs).wellFormed
      _).2 t hlater]

/-- A best edge costs in the end what it did when the span had its turn. -/
theorem costOf_fill {t : Span tagged.length} {label : String} {number : Nat}
    (hbest : (reached (.ofGrammar g) tagged s).best? t label = some number) :
    (fill (.ofGrammar g) tagged).costOf number =
      (reached (.ofGrammar g) tagged s).costOf number := by
  have hwell := (filled_reached htag hs).wellFormed
  obtain ⟨edge, hedge, -⟩ := hwell.edge hbest
  have hkept :=
    (foldl_combine_keeps (RuleIndex.agrees_ofGrammar g) hwell (s :: s.following)).1 hedge
  rw [← fill_eq_resumed _ _ hs] at hkept
  rw [costOf_of_edge? hedge, costOf_of_edge? hkept]

/-- The parts of the span list the rules that can use their labels. -/
theorem indexed_reached {left right : Span tagged.length} (hsplit : (left, right) ∈ s.splits) :
    (reached (.ofGrammar g) tagged s).Indexed (.ofGrammar g) left ∧
      (reached (.ofGrammar g) tagged s).Indexed (.ofGrammar g) right := by
  have hfilled := filled_reached htag hs
  have hturn := Span.turn hs
  obtain ⟨hl, hr⟩ := Span.length_lt_of_mem_splits hsplit
  exact ⟨(hfilled.settled left (hturn.one_or_mem_front hl)).indexed,
    (hfilled.settled right (hturn.one_or_mem_front hr)).indexed⟩

/-- Going through the divisions of the span offers it these edges. -/
theorem divided_eq :
    divided (.ofGrammar g) tagged s =
      (reached (.ofGrammar g) tagged s).offerAll s (offers (.ofGrammar g) tagged s) :=
  (filled_reached htag hs).foldl_splits fun _ hlt => (Span.turn hs).one_or_mem_front hlt

/-- The edges that are offered are the ways to make labels. -/
theorem combination_iff (hlhs : ∀ rule ∈ g.syntactic, rule.lhs.symbols.length = 1)
    {label : String} {cost : κ} :
    (fill (.ofGrammar g) tagged).Combination (.ofGrammar g) s label cost ↔
      ∃ edge ∈ offers (.ofGrammar g) tagged s, edge.label = label ∧ edge.cost = cost := by
  have hi := RuleIndex.agrees_ofGrammar g
  have hwell := (filled_reached htag hs).wellFormed
  constructor
  · rintro @⟨left, right, rule, first, second, a, b, hsplit, hmem, hlabel, hrhs, ha, hb⟩
    obtain ⟨hl, hr⟩ := Span.length_lt_of_mem_splits hsplit
    obtain ⟨hil, hir⟩ := indexed_reached htag hs hsplit
    rw [best?_fill htag hs hl] at ha
    rw [best?_fill htag hs hr] at hb
    refine ⟨_, List.mem_flatMap.2 ⟨(left, right), hsplit, (mem_joined hi hwell hil hir).2
      ⟨rule, label, first, second, a, b, hmem, ?_, hrhs, ha, hb, rfl⟩⟩, rfl, ?_⟩
    · rw [Rule.label?, hlabel]
      rfl
    · rw [costOf_fill htag hs ha, costOf_fill htag hs hb]
      rfl
  · rintro ⟨edge, hedge, rfl, rfl⟩
    obtain ⟨⟨left, right⟩, hsplit, hjoined⟩ := List.mem_flatMap.1 hedge
    obtain ⟨hl, hr⟩ := Span.length_lt_of_mem_splits hsplit
    obtain ⟨hil, hir⟩ := indexed_reached htag hs hsplit
    obtain ⟨rule, label, first, second, a, b, hmem, hlabel, hrhs, ha, hb, rfl⟩ :=
      (mem_joined hi hwell hil hir).1 hjoined
    obtain ⟨symbol, hsymbol⟩ :=
      List.length_eq_one_iff.1 (hlhs rule (RuleIndex.mem_syntactic_of_mem_rules hmem))
    have hone : rule.lhs.symbols = [label] := by
      rw [Rule.label?, hsymbol] at hlabel
      rw [hsymbol, Option.some.inj hlabel]
    rw [Edge.cost, ← costOf_fill htag hs ha, ← costOf_fill htag hs hb]
    exact .intro hsplit hmem hone hrhs ((best?_fill htag hs hl first).trans ha)
      ((best?_fill htag hs hr second).trans hb)

/-- Whenever a division has its turn, what is found there is what applies. -/
theorem findsEach {earlier later : List (Span tagged.length × Span tagged.length)}
    {left right : Span tagged.length} (hsplits : s.splits = earlier ++ (left, right) :: later) :
    (earlier.foldl (divide (.ofGrammar g) s) (reached (.ofGrammar g) tagged s)).FindsEach
      (fill (.ofGrammar g) tagged) (.ofGrammar g) left right := by
  have hi := RuleIndex.agrees_ofGrammar g
  have hsplit : (left, right) ∈ s.splits :=
    hsplits ▸ List.mem_append_right _ List.mem_cons_self
  obtain ⟨hl, hr⟩ := Span.length_lt_of_mem_splits hsplit
  obtain ⟨hleft, hright⟩ := parts_ne (Nat.le_refl _) hsplit
  -- Offers to the span leave the cells of its parts as they are.
  obtain ⟨hgrows, hwell⟩ := grows_foldl_divide (.ofGrammar g)
    (filled_reached htag hs).wellFormed s earlier
  obtain ⟨hil, hir⟩ := indexed_reached htag hs hsplit
  refine findsEach_of_indexed hi hwell ?_ ?_ (fun label => ?_) fun label => ?_
  · rw [Indexed, hgrows.cell_eq hleft]
    exact hil
  · rw [Indexed, hgrows.cell_eq hright]
    exact hir
  · rw [hgrows.best?_eq hleft, best?_fill htag hs hl]
  · rw [hgrows.best?_eq hright, best?_fill htag hs hr]

/-- Every span of several words is filled by the recurrence. -/
theorem byRecurrence [OrderedCost κ]
    (hlhs : ∀ rule ∈ g.syntactic, rule.lhs.symbols.length = 1) :
    ByRecurrence (.ofGrammar g) tagged s where
  resumed := fill_eq_resumed _ _ hs
  labels label := by
    rw [divided_eq htag hs, mem_labels_offerAll_iff (cell?_reached htag hs)]
    constructor
    · rintro ⟨edge, hedge, hlabel⟩
      exact ⟨edge.cost, (combination_iff htag hs hlhs).2 ⟨edge, hedge, hlabel, rfl⟩⟩
    · rintro ⟨cost, hcombination⟩
      obtain ⟨edge, hedge, hlabel, -⟩ := (combination_iff htag hs hlhs).1 hcombination
      exact ⟨edge, hedge, hlabel⟩
  least label number hbest := by
    rw [divided_eq htag hs] at hbest ⊢
    obtain ⟨hattained, hleast⟩ :=
      best?_offerAll_least (filled_reached htag hs).wellFormed (cell?_reached htag hs) hbest
    refine ⟨(combination_iff htag hs hlhs).2 hattained, fun cost hcombination => ?_⟩
    obtain ⟨edge, hedge, hlabel, rfl⟩ := (combination_iff htag hs hlhs).1 hcombination
    exact hleast edge hedge hlabel
  found _ _ _ _ hsplits := findsEach htag hs hsplits

end

end Chart

namespace Decoder

variable {κ : Type} [Cost κ] [OrderedCost κ] {g : Grammar κ} {unknown : UnknownWords κ}
  {start top : String} {d : Decoder κ}

/-- If rules have one symbol on the left and any two costs can be compared, every sentence has a
chart, and each of its spans of several words is filled by the recurrence. -/
theorem fill_byRecurrence (hd : Decoder.ofGrammar g unknown start top = .ok d) (hone : g.OneLeft)
    (words : List String) :
    ∃ tagged, d.tagged words = .ok tagged ∧
      ∀ s : Span tagged.length, 1 < s.length → Chart.ByRecurrence d.index tagged s := by
  obtain ⟨tagged, htagged⟩ := exists_tagged_of_oneLeft hd hone words
  obtain rfl := eq_of_ofGrammar hd
  exact ⟨tagged, htagged, fun s hs =>
    Chart.byRecurrence (tagged_eq_ok_iff.1 htagged).2 hs hone.syntactic⟩

/-- A grammar in which "dogs bark" is a sentence in two ways. -/
def barkingNouns : Grammar WholeCost where
  counts := .empty
  syntactic := [.plain ⟨["S"]⟩ ⟨["N", "N"]⟩ ⟨0⟩, .plain ⟨["S"]⟩ ⟨["N", "V"]⟩ ⟨1⟩]
  lexicon := ⟨[("dogs", [.ofWord "N" "dogs" ⟨2⟩]),
    ("bark", [.ofWord "N" "bark" ⟨5⟩, .ofWord "V" "bark" ⟨3⟩])]⟩
  smoothing := [⟨"N", ⟨1⟩⟩]

/-- The words of the sentence with their candidates. -/
def barkingTagged : List (String × List (Candidate WholeCost)) :=
  [("dogs", [⟨"N", ⟨2⟩, .lexicon⟩]), ("bark", [⟨"N", ⟨5⟩, .lexicon⟩, ⟨"V", ⟨3⟩, .lexicon⟩])]

/-- The sentence is made in the cheaper of the two ways. -/
theorem fill_byRecurrence_barkingNouns :
    ∃ (d : Decoder WholeCost) (whole : Span barkingTagged.length),
      Decoder.ofGrammar barkingNouns (.standard ⟨1⟩) "S" "TOP" = .ok d ∧ barkingNouns.OneLeft ∧
      d.tagged ["dogs", "bark"] = .ok barkingTagged ∧ 1 < whole.length ∧
      Chart.ByRecurrence d.index barkingTagged whole ∧
      (Chart.fill d.index barkingTagged).Combination d.index whole "S" ⟨6⟩ ∧
      ∀ cost, (Chart.fill d.index barkingTagged).Combination d.index whole "S" cost →
        Cost.AtMost ⟨6⟩ cost := by
  have hd : Decoder.ofGrammar barkingNouns (.standard ⟨1⟩) "S" "TOP" =
      .ok ⟨barkingNouns, .ofGrammar barkingNouns, .standard ⟨1⟩, "S", "TOP"⟩ := rfl
  have hone : barkingNouns.OneLeft := Grammar.oneLeft_of_values (by decide) (by decide)
  have htagged : (Decoder.mk barkingNouns (.ofGrammar barkingNouns) (.standard ⟨1⟩) "S"
      "TOP").tagged ["dogs", "bark"] = .ok barkingTagged := by decide +kernel
  obtain ⟨tagged, htagged', hfilled⟩ := fill_byRecurrence hd hone ["dogs", "bark"]
  obtain rfl := Except.ok.inj (htagged.symm.trans htagged')
  have hwhole := hfilled ⟨0, 2, by decide, by decide⟩ (by decide)
  have hleast := hwhole.least "S" 6 (by decide +kernel)
  have hcost : (Chart.divided (.ofGrammar barkingNouns) barkingTagged
      ⟨0, 2, by decide, by decide⟩).costOf 6 = ⟨6⟩ := by decide +kernel
  exact ⟨_, _, hd, hone, htagged, by decide, hwhole, hcost ▸ hleast.1, hcost ▸ hleast.2⟩

end Decoder

end Constituency
