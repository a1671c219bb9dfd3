import Constituency.Proofs.Decoding.Completeness

/-!
# How cheap the returned derivation is

Let costs be exact. A finished cell is as cheap as the tagger and the rules ask along chains that
climb in the order of its labels (`Priced`). So the derivation that a decoder returns is the
cheapest of the parses whose unary chains climb in that order, and it climbs so itself.

It need not be the cheapest parse: the rules over a label fire once in a cell, when the label is
met. If a label gets a cheaper edge later, from a label that stands behind it, what was made of it
keeps the old one. `decode_least_iff` says exactly when no cheaper parse is missed: each parse has
one that is no dearer and climbs in order.
-/

namespace Constituency

namespace Chart

variable {κ : Type} [Cost κ] [ExactCost κ] {n : Nat} {g : Grammar κ} {unknown : UnknownWords κ}
  {words : List String} {chart : Chart κ n}

omit [Cost κ] [ExactCost κ] in
/-- Spans with the same positions are the same, so an order of labels there is one in the cell. -/
theorem sublist_of_before {s : Span n} {lower upper : String}
    (h : chart.Before s.start s.stop lower upper) :
    [lower, upper].Sublist (chart.cell s).labels := by
  obtain ⟨other, hstart, hstop, hsub⟩ := h
  obtain rfl := Span.ext hstart hstop
  exact hsub

/-- The root of a derived tree whose chains climb in order is a label of the span of its words, at
most at the cost of the tree. If the chain at the root goes on in order, the closure meets the label
at most at that cost. -/
theorem Filled.within_of_derives (hn : words.length = n)
    (h : chart.Filled g unknown words fun _ => True) {t : Tree} {cost : κ}
    (ht : g.Derives unknown t cost) {s : Span n} (hs : t.words = s.pick words)
    (horder : t.InOrder chart.Before s.start) :
    chart.HasWithin s t.label cost ∧ ∀ met, chart.Priced g unknown words s met →
      (∀ lower, t.below? = some lower → [lower, t.label].Sublist (chart.cell s).labels) →
      met t.label cost := by
  induction ht generalizing s with
  | word tagged mem =>
    obtain ⟨priced, hpriced⟩ := h.priced inferInstance s trivial
    rw [Tree.words_unary, Tree.words_leaf] at hs
    obtain ⟨hlength, here⟩ := Span.getElem?_of_pick_eq_singleton hn hs.symm
    exact ⟨hpriced.within (hpriced.word hlength here tagged mem),
      fun met hmet _ => hmet.word hlength here tagged mem⟩
  | @unary rule label t cost numbered named rhs below ih =>
    rw [Tree.words_unary] at hs
    cases horder with
    | word => exact absurd below.isLeaf nofun
    | unary horder climbs =>
      -- The chain below the root climbs in order, so the closure meets the lower label in time.
      have hclimbs : ∀ lower, t.below? = some lower →
          [lower, t.label].Sublist (chart.cell s).labels := by
        intro lower hlower
        have hbefore := climbs lower hlower
        rw [hs, s.length_pick hn, s.start_add_length] at hbefore
        exact sublist_of_before hbefore
      have hbelow := (ih hs horder).2
      obtain ⟨priced, hpriced⟩ := h.priced inferInstance s trivial
      refine ⟨hpriced.unary numbered named rhs (hbelow priced hpriced hclimbs),
        fun met hmet hnext => ?_⟩
      exact hmet.chain numbered named rhs (hbelow met hmet hclimbs)
        (hnext t.label (Tree.below?_unary below.isLeaf))
  | @binary rule label l r lcost rcost numbered named rhs lderives rderives ihl ihr =>
    rw [Tree.words_binary] at hs
    cases horder with
    | binary lorder rorder =>
      obtain ⟨left, right, hsplit, hleft, hright⟩ :=
        Span.exists_split_of_append hn hs l.words_ne_nil r.words_ne_nil
      obtain ⟨h1, h2, -⟩ := Span.mem_splits.1 hsplit
      obtain ⟨priced, hpriced⟩ := h.priced inferInstance s trivial
      rw [← hleft, left.length_pick hn, ← h1, left.start_add_length, h2] at rorder
      rw [← h1] at lorder
      have hl := (ihl hleft.symm lorder).1
      have hr := (ihr hright.symm rorder).1
      exact ⟨hpriced.within (hpriced.binary hsplit numbered named rhs hl hr),
        fun met hmet _ => hmet.binary hsplit numbered named rhs hl hr⟩

end Chart

namespace Decoder

variable {κ : Type} [Cost κ] [ExactCost κ] {g : Grammar κ} {unknown : UnknownWords κ}
  {start top : String} {d : Decoder κ} {words : List String}

/-- A sentence with a parse is decoded to one whose chains climb in order, at most as dear as any
other parse whose chains do. -/
theorem decode_least_inOrder (hd : Decoder.ofGrammar g unknown start top = .ok d)
    (hlhs : ∀ rule ∈ g.syntactic, rule.lhs.symbols.length = 1)
    {tagged : List (String × List (Candidate κ))} (htag : d.tagged words = .ok tagged)
    (hparse : ∃ t cost, g.Parses unknown start words t cost) :
    ∃ t cost, d.decode words = .ok ⟨.node top [t], cost⟩ ∧ g.Parses unknown start words t cost ∧
      t.InOrder (Chart.fill (.ofGrammar g) tagged).Before 0 ∧
      ∀ t' cost', g.Parses unknown start words t' cost' →
        t'.InOrder (Chart.fill (.ofGrammar g) tagged).Before 0 → Cost.AtMost cost cost' := by
  obtain ⟨t₀, cost₀, h₀⟩ := hparse
  obtain ⟨hn, hfilled⟩ := filled hd htag
  obtain ⟨t, cost, hderivation, hdecode⟩ := exists_decode_eq_ok hd hlhs htag h₀
  obtain ⟨hparses, horder⟩ := reading_of_derivation? hd htag hderivation
  refine ⟨t, cost, hdecode, hparses, horder, fun t' cost' h' horder' => ?_⟩
  obtain ⟨whole, hstart, hstop, number, hb, -, rfl⟩ :=
    Chart.derivation?_eq_some_iff.1 hderivation
  -- The best edge of the whole span costs at most what any parse in order does.
  have hwords : t'.words = whole.pick words := by
    rw [h'.words, Span.pick_whole hn hstart hstop]
  obtain ⟨number', hb', hle⟩ :=
    (hfilled.within_of_derives hn h'.derives hwords (hstart ▸ horder')).1
  rw [h'.label, hb] at hb'
  obtain rfl := Option.some.inj hb'
  exact hle

/-- A sentence with a parse is decoded to the cheapest of the parses whose chains climb in the order
of the labels. No parse is cheaper exactly if every one has another that is no dearer and climbs in
that order. -/
theorem decode_least_iff (hd : Decoder.ofGrammar g unknown start top = .ok d) (hone : g.OneLeft)
    (hparse : ∃ t cost, g.Parses unknown start words t cost) :
    ∃ tagged t cost, d.tagged words = .ok tagged ∧ d.decode words = .ok ⟨.node top [t], cost⟩ ∧
      g.Parses unknown start words t cost ∧ t.InOrder (Chart.fill d.index tagged).Before 0 ∧
      (∀ t' cost', g.Parses unknown start words t' cost' →
        t'.InOrder (Chart.fill d.index tagged).Before 0 → Cost.AtMost cost cost') ∧
      ((∀ t' cost', g.Parses unknown start words t' cost' → Cost.AtMost cost cost') ↔
        ∀ t' cost', g.Parses unknown start words t' cost' →
          ∃ t'' cost'', g.Parses unknown start words t'' cost'' ∧
            t''.InOrder (Chart.fill d.index tagged).Before 0 ∧ Cost.AtMost cost'' cost') := by
  have hgrammar := eq_of_ofGrammar hd
  obtain ⟨tagged, htag⟩ := exists_tagged_of_oneLeft hd hone words
  have hindex : d.index = .ofGrammar g := by rw [hgrammar]
  obtain ⟨t, cost, hdecode, hparses, horder, hleast⟩ :=
    decode_least_inOrder hd hone.syntactic htag hparse
  rw [hindex]
  refine ⟨tagged, t, cost, htag, hdecode, hparses, horder, hleast, fun h t' cost' h' => ?_,
    fun h t' cost' h' => ?_⟩
  · exact ⟨t, cost, hparses, horder, h t' cost' h'⟩
  · obtain ⟨t'', cost'', h'', horder'', hle⟩ := h t' cost' h'
    exact OrderedCost.trans (hleast t'' cost'' h'' horder'') hle

omit [ExactCost κ] in
/-- If no unary rule is over the symbol that another one makes, all derived trees climb in order,
whatever the order is. -/
theorem inOrder_of_no_chain (hlhs : ∀ rule ∈ g.syntactic, rule.lhs.symbols.length = 1)
    (hchain : ∀ upper ∈ g.syntactic, ∀ lower ∈ g.syntactic, lower.isUnary = true →
      upper.rhs.symbols ≠ lower.lhs.symbols)
    {before : Nat → Nat → String → String → Prop} {t : Tree} {cost : κ}
    (ht : g.Derives unknown t cost) (place : Nat) : t.InOrder before place := by
  induction ht generalizing place with
  | word _ _ => exact .word
  | binary _ _ _ _ _ ihl ihr => exact .binary (ihl place) (ihr _)
  | @unary upper label t cost hupper _ rhs below ih =>
    refine .unary (ih place) fun symbol hsymbol => ?_
    -- What has another tree as its only child has been made by a unary rule.
    cases below with
    | word _ _ => exact absurd hsymbol nofun
    | binary _ _ _ _ _ => exact absurd ((Tree.below?_binary _ _ _).symm.trans hsymbol) nofun
    | @unary lower middle t' cost' hlower named rhs' below' =>
      have hmem := RuleIndex.mem_syntactic_of_mem_rules hlower
      obtain ⟨left, hleft⟩ := List.length_eq_one_iff.1 (hlhs lower hmem)
      rw [Rule.label?, hleft] at named
      have hunary : lower.isUnary = true := by
        rw [Rule.isUnary, Side.size, rhs']
        rfl
      have hupper' := RuleIndex.mem_syntactic_of_mem_rules hupper
      refine absurd ?_ (hchain upper hupper' lower hmem hunary)
      rw [rhs, hleft, Option.some.inj named]
      rfl

/-- If no unary rule is over the symbol that another one makes, a sentence with a parse is decoded
to a cheapest one. -/
theorem decode_least_of_no_chain (hd : Decoder.ofGrammar g unknown start top = .ok d)
    (hone : g.OneLeft)
    (hchain : ∀ upper ∈ g.syntactic, ∀ lower ∈ g.syntactic, lower.isUnary = true →
      upper.rhs.symbols ≠ lower.lhs.symbols)
    (hparse : ∃ t cost, g.Parses unknown start words t cost) :
    ∃ r, d.decode words = .ok r ∧
      ∀ t cost, g.Parses unknown start words t cost → Cost.AtMost r.cost cost := by
  obtain ⟨tagged, htag⟩ := exists_tagged_of_oneLeft hd hone words
  obtain ⟨t, cost, hdecode, -, -, hleast⟩ := decode_least_inOrder hd hone.syntactic htag hparse
  exact ⟨_, hdecode, fun t' cost' h' =>
    hleast t' cost' h' (inOrder_of_no_chain hone.syntactic hchain h'.derives 0)⟩

/-- A grammar with a chain of two unary rules that leads to the cheap part of speech of a word. -/
def chained : Grammar WholeCost where
  counts := .empty
  syntactic := [.plain ⟨["S"]⟩ ⟨["B"]⟩ ⟨0⟩, .plain ⟨["B"]⟩ ⟨["C"]⟩ ⟨0⟩]
  lexicon := ⟨[("w", [.ofWord "B" "w" ⟨10⟩, .ofWord "C" "w" ⟨1⟩])]⟩
  smoothing := [⟨"B", ⟨0⟩⟩]

/-- The decoder of that grammar. -/
def chainedDecoder : Decoder WholeCost := ⟨chained, .ofGrammar chained, .standard ⟨1⟩, "S", "TOP"⟩

/-- The rules of that grammar have one symbol on the left. -/
theorem oneLeft_chained : chained.OneLeft := Grammar.oneLeft_of_values (by decide) (by decide)

/-- Its word has a parse of one unit, over the cheap part of speech. -/
theorem parses_chained :
    chained.Parses (.standard ⟨1⟩) "S" ["w"]
      (.node "S" [.node "B" [.node "C" [.leaf "w"]]]) ⟨1⟩ := by
  let b : Candidate WholeCost := ⟨"B", ⟨10⟩, .lexicon⟩
  let c : Candidate WholeCost := ⟨"C", ⟨1⟩, .lexicon⟩
  have htag : chained.tag (.standard ⟨1⟩) "w" = .ok [b, c] := rfl
  have hupper : (RuleIndex.ofGrammar chained).rule? 0 = some (.plain ⟨["S"]⟩ ⟨["B"]⟩ ⟨0⟩) := by
    decide +kernel
  have hlower : (RuleIndex.ofGrammar chained).rule? 1 = some (.plain ⟨["B"]⟩ ⟨["C"]⟩ ⟨0⟩) := by
    decide +kernel
  have hword : chained.Derives (.standard ⟨1⟩) (.node c.tag [.leaf "w"]) c.cost :=
    .word htag (List.mem_cons_of_mem b List.mem_cons_self)
  exact ⟨rfl, rfl, .unary (RuleIndex.mem_rules_of_rule? hupper) rfl rfl
    (.unary (RuleIndex.mem_rules_of_rule? hlower) rfl rfl hword)⟩

/-- Its word is decoded at ten units: the rule over "B" has fired before "B" gets its cheap edge. -/
theorem decode_chained :
    chainedDecoder.decode ["w"] =
      .ok ⟨.node "TOP" [.node "S" [.node "B" [.leaf "w"]]], ⟨10⟩⟩ := by
  decide +kernel

/-- Ten units are more than one. -/
theorem not_ten_atMost_one : ¬ Cost.AtMost (WholeCost.mk 10) ⟨1⟩ := by
  unfold Cost.AtMost
  decide

/-- The parse of one unit does not climb in order, and none that does is as cheap. -/
theorem decode_least_iff_chained :
    Decoder.ofGrammar chained (.standard ⟨1⟩) "S" "TOP" = .ok chainedDecoder ∧ chained.OneLeft ∧
      (∃ t cost, chained.Parses (.standard ⟨1⟩) "S" ["w"] t cost) ∧
      ∃ tagged, chainedDecoder.tagged ["w"] = .ok tagged ∧
        ¬ ∃ t cost, chained.Parses (.standard ⟨1⟩) "S" ["w"] t cost ∧
          t.InOrder (Chart.fill chainedDecoder.index tagged).Before 0 ∧
          Cost.AtMost cost ⟨1⟩ := by
  have hd : Decoder.ofGrammar chained (.standard ⟨1⟩) "S" "TOP" = .ok chainedDecoder := rfl
  obtain ⟨tagged, t, cost, htag, hdecode, -, -, hleast, -⟩ :=
    decode_least_iff hd oneLeft_chained ⟨_, _, parses_chained⟩
  refine ⟨hd, oneLeft_chained, ⟨_, _, parses_chained⟩, tagged, htag, ?_⟩
  rintro ⟨t', cost', hparses, horder, hle⟩
  have hten : cost = ⟨10⟩ := by
    have he := hdecode.symm.trans decode_chained
    exact (Derivation.mk.inj (Except.ok.inj he)).2
  exact not_ten_atMost_one (hten ▸ OrderedCost.trans (hleast t' cost' hparses horder) hle)

/-- The word is decoded at ten units though it has a parse of one. -/
theorem decode_not_least :
    Decoder.ofGrammar chained (.standard ⟨1⟩) "S" "TOP" = .ok chainedDecoder ∧ chained.OneLeft ∧
      chainedDecoder.decode ["w"] =
        .ok ⟨.node "TOP" [.node "S" [.node "B" [.leaf "w"]]], ⟨10⟩⟩ ∧
      chained.Parses (.standard ⟨1⟩) "S" ["w"]
        (.node "S" [.node "B" [.node "C" [.leaf "w"]]]) ⟨1⟩ ∧
      ¬ Cost.AtMost (WholeCost.mk 10) ⟨1⟩ :=
  ⟨rfl, oneLeft_chained, decode_chained, parses_chained, not_ten_atMost_one⟩

end Decoder

end Constituency
