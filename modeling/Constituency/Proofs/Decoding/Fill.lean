import Constituency.Proofs.Decoding.Cells

/-!
# Filling the chart

Whatever spans have been filled so far, their cells are finished and hold readings, and all other
cells have not been made (`Filled`). A span is filled in two steps: edges are offered to its cell
that no unary rule has made (`Basis`), and the cell is finished. Both the words and the divisions
offer such edges, so the invariant goes from the shortest spans to the longest (`filled_fill`).
-/

namespace Constituency

namespace Chart

variable {κ : Type} [Cost κ] {n : Nat} {g : Grammar κ} {unknown : UnknownWords κ}
  {words : List String} {chart : Chart κ n} {s : Span n}

/-- Edges that can be offered to the cell of a span before it is finished: they stand for readings
in which no chain has begun, and none is missing that the tagger or a binary rule asks for. -/
structure Basis (g : Grammar κ) (unknown : UnknownWords κ) (words : List String)
    (chart : Chart κ n) (s : Span n) (edges : List (Edge κ)) : Prop where
  /-- An edge stands for a reading. -/
  reading : ∀ edge ∈ edges, ∃ t, chart.treeOver? edge = some t ∧
    Reading g unknown words chart.Before s edge.label edge.cost t ∧ t.below? = none
  /-- There is an edge for every candidate of a word. -/
  word : ∀ {text : String} {candidates : List (Candidate κ)} {candidate : Candidate κ},
    s.length = 1 → words[s.start]? = some text → g.tag unknown text = .ok candidates →
    candidate ∈ candidates →
    ∃ edge ∈ edges, edge.label = candidate.tag ∧ edge.cost = candidate.cost
  /-- There is an edge for every binary rule over the best edges of two parts. -/
  binary : ∀ {rule : Rule κ} {label first second : String} {left right : Span n} {a b : Nat},
    (left, right) ∈ s.splits → rule ∈ (RuleIndex.ofGrammar g).rules →
    rule.label? = some label → rule.rhs.symbols = [first, second] →
    chart.best? left first = some a → chart.best? right second = some b →
    ∃ edge ∈ edges, edge.label = label ∧
      edge.cost = rule.cost + chart.costOf a + chart.costOf b

/-! ## One span -/

/-- The cell of a span that has been made of a basis is settled. -/
theorem Basis.settled {edges : List (Edge κ)} (h : chart.Basis g unknown words s edges)
    (hw : chart.WellFormed) :
    ((chart.offerAll s edges).finish (.ofGrammar g) s).Settled g unknown words s := by
  have hi := RuleIndex.agrees_ofGrammar g
  have hwo := hw.offerAll s edges
  have hfinish := grows_finish hi hwo s
  have hgrows := (grows_offerAll chart s edges).trans hfinish
  have hoffered : ∀ edge ∈ edges,
      edge.label ∈ (((chart.offerAll s edges).finish (.ofGrammar g) s).cell s).labels :=
    fun edge he => hfinish.labels.subset (mem_labels_offerAll chart s he)
  refine ⟨indexed_finish _ _ s, fun hlength htext htag hmem => ?_, ?_, ?_⟩
  · obtain ⟨edge, he, hlabel, -⟩ := h.word hlength htext htag hmem
    exact hlabel ▸ hoffered edge he
  · intro rule label symbol hr hl hover hsymbol
    rw [labels_finish] at hsymbol ⊢
    obtain ⟨place, hplace⟩ := List.mem_iff_getElem?.1 hsymbol
    have hlt := (List.getElem?_eq_some_iff.1 hplace).1
    rw [closeUnary_eq_sweep hi hwo s] at hplace ⊢
    exact mem_labels_sweep hi hlt hplace hr hl hover
  · intro rule label first second left right hsplit hr hl hover hfirst hsecond
    obtain ⟨hleft, hright⟩ := parts_ne (Nat.le_refl _) hsplit
    rw [hgrows.cell_eq hleft] at hfirst
    rw [hgrows.cell_eq hright] at hsecond
    obtain ⟨a, ha⟩ := exists_best? hfirst
    obtain ⟨b, hb⟩ := exists_best? hsecond
    obtain ⟨edge, he, hlabel, -⟩ := h.binary hsplit hr hl hover ha hb
    exact hlabel ▸ hoffered edge he

/-- The cell of a span that has been made of a basis is priced. -/
theorem Basis.priced [ExactCost κ] {edges : List (Edge κ)}
    (h : chart.Basis g unknown words s edges) (hw : chart.WellFormed) :
    ∃ met, ((chart.offerAll s edges).finish (.ofGrammar g) s).Priced g unknown words s met := by
  have hi := RuleIndex.agrees_ofGrammar g
  have hwo := hw.offerAll s edges
  have hfinish := grows_finish hi hwo s
  have hgrows := (grows_offerAll chart s edges).trans hfinish
  obtain ⟨count, hcount⟩ : ∃ count, count =
      (((chart.offerAll s edges).closeUnary (.ofGrammar g) s).cell s).labels.length := ⟨_, rfl⟩
  -- The closure is the sweep through as many places as the cell has labels in the end.
  have hclosed : (chart.offerAll s edges).closeUnary (.ofGrammar g) s =
      (chart.offerAll s edges).sweep (.ofGrammar g) s count := by
    rw [hcount]
    exact closeUnary_eq_sweep hi hwo s
  -- What has been offered is there before the sweep begins, so it is met at most at its cost.
  have hoffered : ∀ edge ∈ edges,
      (chart.offerAll s edges).Meets (.ofGrammar g) s count edge.label edge.cost := by
    intro edge he
    have hlabel := hfinish.labels.subset (mem_labels_offerAll chart s he)
    rw [labels_finish] at hlabel
    obtain ⟨place, hplace⟩ := List.mem_iff_getElem?.1 hlabel
    have hlt := (List.getElem?_eq_some_iff.1 hplace).1
    rw [← hcount] at hlt
    rw [hclosed] at hplace
    have hzero : ((chart.offerAll s edges).sweep (.ofGrammar g) s 0).HasWithin s edge.label
        edge.cost := hasWithin_offerAll hw he
    exact meets_of_hasWithin hwo (Nat.zero_le _) hlt hzero hplace
  refine ⟨(chart.offerAll s edges).Meets (.ofGrammar g) s count, fun hmet => ?_,
    fun hlength htext htag hmem => ?_, ?_, fun hr hl hover hmet => ?_, ?_⟩
  · rw [hasWithin_finish, hclosed]
    exact hmet.hasWithin hwo
  · obtain ⟨edge, he, hlabel, hcost⟩ := h.word hlength htext htag hmem
    rw [← hlabel, ← hcost]
    exact hoffered edge he
  · intro rule label first second left right a b hsplit hr hl hover hfirst hsecond
    obtain ⟨hleft, hright⟩ := parts_ne (Nat.le_refl _) hsplit
    rw [hgrows.hasWithin_iff hw hleft] at hfirst
    rw [hgrows.hasWithin_iff hw hright] at hsecond
    obtain ⟨l, hl', ha⟩ := hfirst
    obtain ⟨r, hr', hb⟩ := hsecond
    obtain ⟨edge, he, hlabel, hcost⟩ := h.binary hsplit hr hl hover hl' hr'
    rw [← hlabel]
    refine (hoffered edge he).mono ?_
    rw [hcost]
    exact ExactCost.add (ExactCost.add (OrderedCost.refl _) ha) hb
  · rw [hasWithin_finish, hclosed]
    exact hmet.raise hi hwo hr hl hover
  · intro rule label symbol bound hr hl hover hmet hsub
    rw [labels_finish, hclosed] at hsub
    rw [hclosed] at hcount
    exact hmet.chain hi hwo hcount.symm hr hl hover hsub

/-! ## The invariant -/

/-- Some spans of a chart have been filled and no others. -/
structure Filled (g : Grammar κ) (unknown : UnknownWords κ) (words : List String)
    (chart : Chart κ n) (done : Span n → Prop) : Prop where
  /-- The chart is well-formed. -/
  wellFormed : chart.WellFormed
  /-- The best edges stand for readings. -/
  sound : chart.Sound g unknown words
  /-- The cells of the filled spans are settled. -/
  settled : ∀ s, done s → chart.Settled g unknown words s
  /-- Where costs are exact, they are priced. -/
  priced : ExactCost κ → ∀ s, done s → ∃ met, chart.Priced g unknown words s met
  /-- The other cells have not been made. -/
  fresh : ∀ s, ¬ done s → chart.cell? s = none

namespace Filled

variable {done : Span n → Prop}

/-- Which spans have been filled can be said in other words. -/
theorem congr {same : Span n → Prop} (h : chart.Filled g unknown words done)
    (hsame : ∀ s, same s ↔ done s) : chart.Filled g unknown words same where
  wellFormed := h.wellFormed
  sound := h.sound
  settled s hs := h.settled s ((hsame s).1 hs)
  priced hexact s hs := h.priced hexact s ((hsame s).1 hs)
  fresh s hs := h.fresh s fun hd => hs ((hsame s).2 hd)

/-- Before any span has been filled. -/
theorem empty (g : Grammar κ) (unknown : UnknownWords κ) (words : List String) :
    (Chart.empty n : Chart κ n).Filled g unknown words fun _ => False where
  wellFormed := wellFormed_empty
  sound s label number hb := by
    rw [best?_of_cell?_none (cell?_empty s)] at hb
    exact absurd hb nofun
  settled _ := False.elim
  priced _ _ := False.elim
  fresh s _ := cell?_empty s

/-- Making an edge that is put into no cell changes nothing. -/
theorem alloc (h : chart.Filled g unknown words done) (edge : Edge κ) :
    (chart.alloc edge).1.Filled g unknown words done where
  wellFormed := h.wellFormed.alloc edge
  sound s := ((h.sound s).mono fun hreading =>
    hreading.mono (chart.grows_alloc s edge).before).of_best?_eq h.wellFormed
      (chart.grows_alloc s edge) fun _ => rfl
  settled s hs := by
    obtain ⟨indexed, word, unary, binary⟩ := h.settled s hs
    exact ⟨indexed, word, unary, binary⟩
  priced hexact s hs := by
    -- Cells and numbers stay as they are, so the best edges cost what they did.
    have hwithin : ∀ {t : Span n} {label : String} {bound : κ},
        (chart.alloc edge).1.HasWithin t label bound ↔ chart.HasWithin t label bound := by
      intro t label bound
      have hcost : ∀ {number : Nat}, chart.best? t label = some number →
          (chart.alloc edge).1.costOf number = chart.costOf number := by
        intro number hb
        obtain ⟨old, he, -⟩ := h.wellFormed.edge hb
        exact (chart.grows_alloc t edge).costOf_eq he
      refine ⟨fun ⟨number, hb, hc⟩ => ⟨number, hb, ?_⟩, fun ⟨number, hb, hc⟩ => ⟨number, hb, ?_⟩⟩
      · rw [← hcost hb]
        exact hc
      · rw [hcost hb]
        exact hc
    obtain ⟨met, within, word, binary, unary, chain⟩ := h.priced hexact s hs
    refine ⟨met, fun hmet => hwithin.2 (within hmet), word, ?_,
      fun hr hl hover hmet => hwithin.2 (unary hr hl hover hmet), chain⟩
    intro rule label first second left right a b hsplit hr hl hover hfirst hsecond
    exact binary hsplit hr hl hover (hwithin.1 hfirst) (hwithin.1 hsecond)
  fresh := h.fresh

/-- A span is filled by offering a basis to its cell and finishing it. -/
theorem extend (hn : words.length = n) (h : chart.Filled g unknown words done) (hs : ¬ done s)
    (hlonger : ∀ t, done t → t.length ≤ s.length) {edges : List (Edge κ)}
    (hb : chart.Basis g unknown words s edges) :
    ((chart.offerAll s edges).finish (.ofGrammar g) s).Filled g unknown words
      fun t => done t ∨ t = s := by
  have hi := RuleIndex.agrees_ofGrammar g
  have hwo := h.wellFormed.offerAll s edges
  have hoffer := grows_offerAll chart s edges
  have hgrows := hoffer.trans (grows_finish hi hwo s)
  have hne : ∀ {t}, done t → t ≠ s := fun hd he => hs (he ▸ hd)
  refine ⟨hwo.finish hi s, ?_, fun t ht => ?_, fun hexact t ht => ?_, fun t ht => ?_⟩
  · refine Sound.finish hn hwo (fun t ht => ?_) ?_
    · exact ((h.sound t).mono fun hreading => hreading.mono hoffer.before).of_best?_eq h.wellFormed
        hoffer (hoffer.best?_eq ht)
    · -- The cell has not been made, so all its best edges are among those offered.
      refine Backed.offerAll (fun label number hbest => ?_) h.wellFormed fun edge he => ?_
      · rw [best?_of_cell?_none (h.fresh s hs)] at hbest
        exact absurd hbest nofun
      · obtain ⟨t, ht, hreading, hnone⟩ := hb.reading edge he
        exact ⟨t, ht, hreading.mono hoffer.before, hnone⟩
  · rcases ht with ht | rfl
    · exact (h.settled t ht).grows hgrows (hne ht) (hlonger t ht)
    · exact hb.settled h.wellFormed
  · rcases ht with ht | rfl
    · obtain ⟨met, hmet⟩ := h.priced hexact t ht
      exact ⟨met, hmet.grows h.wellFormed hgrows (hne ht) (hlonger t ht)⟩
    · exact hb.priced h.wellFormed
  · rw [not_or] at ht
    rw [hgrows.cell ht.2]
    exact h.fresh t ht.1

/-! ## Words -/

/-- The candidates of a word are a basis of its span. -/
theorem basis_word (hs : s.length = 1) {text : String} (htext : words[s.start]? = some text)
    {candidates : List (Candidate κ)} (htag : g.tag unknown text = .ok candidates) :
    (chart.alloc (.word text)).1.Basis g unknown words s
      (candidates.map fun candidate => .unary candidate.tag candidate.cost chart.edges.size) where
  reading edge he := by
    obtain ⟨candidate, hmem, rfl⟩ := List.mem_map.1 he
    have hleaf : (chart.alloc (.word text)).1.tree? chart.edges.size = some (.leaf text) :=
      tree?_alloc rfl
    refine ⟨.node candidate.tag [.leaf text], by rw [treeOver?, hleaf]; rfl, ⟨rfl, ?_, ?_, ?_⟩, rfl⟩
    · rw [Tree.words_unary, Tree.words_leaf, s.pick_of_length_one hs htext]
    · exact .word htag hmem
    · exact .word
  word _ htext' htag' hmem := by
    obtain rfl := Option.some.inj (htext.symm.trans htext')
    obtain rfl := Except.ok.inj (htag.symm.trans htag')
    exact ⟨_, List.mem_map.2 ⟨_, hmem, rfl⟩, rfl, rfl⟩
  binary {rule label first second left right a b} hsplit := by
    obtain ⟨hl, -⟩ := Span.length_lt_of_mem_splits hsplit
    have hpos := left.length_pos
    omega

/-- The span of a word is filled from the candidates of the word. -/
theorem seed (hn : words.length = n) (h : chart.Filled g unknown words done) (hnew : ¬ done s)
    (hdone : ∀ t, done t → t.length ≤ 1) (hs : s.length = 1) {text : String}
    (htext : words[s.start]? = some text) {candidates : List (Candidate κ)}
    (htag : g.tag unknown text = .ok candidates) :
    (Chart.seed (.ofGrammar g) chart (s, text, candidates)).Filled g unknown words
      fun t => done t ∨ t = s := by
  have hseed : Chart.seed (.ofGrammar g) chart (s, text, candidates) =
      ((chart.alloc (.word text)).1.offerAll s
        (candidates.map fun candidate =>
          .unary candidate.tag candidate.cost chart.edges.size)).finish (.ofGrammar g) s := by
    rw [offerAll, List.foldl_map]
    rfl
  rw [hseed]
  exact (h.alloc (.word text)).extend hn hnew (fun t ht => hs ▸ hdone t ht)
    (basis_word hs htext htag)

/-- The spans of words are filled one after the other. -/
theorem foldl_seed (hn : words.length = n) (h : chart.Filled g unknown words done)
    (hdone : ∀ t, done t → t.length ≤ 1)
    {seeds : List (Span n × String × List (Candidate κ))}
    (hseeds : ∀ p ∈ seeds, p.1.length = 1 ∧ words[p.1.start]? = some p.2.1 ∧
      g.tag unknown p.2.1 = .ok p.2.2)
    (hnodup : (seeds.map Prod.fst).Nodup) (hnew : ∀ p ∈ seeds, ¬ done p.1) :
    (seeds.foldl (Chart.seed (.ofGrammar g)) chart).Filled g unknown words
      fun t => done t ∨ t ∈ seeds.map Prod.fst := by
  induction seeds generalizing chart done with
  | nil => exact h.congr (by simp)
  | cons p rest ih =>
    obtain ⟨s, text, candidates⟩ := p
    obtain ⟨hs, htext, htag⟩ := hseeds _ List.mem_cons_self
    rw [List.map_cons, List.nodup_cons] at hnodup
    have hfirst := h.seed hn (hnew _ List.mem_cons_self) hdone hs htext htag
    have hdone' : ∀ t, done t ∨ t = s → t.length ≤ 1 := by
      rintro t (ht | rfl)
      · exact hdone t ht
      · exact Nat.le_of_eq hs
    have hnew' : ∀ p ∈ rest, ¬ (done p.1 ∨ p.1 = s) := by
      rintro p hp (hd | he)
      · exact hnew p (List.mem_cons_of_mem _ hp) hd
      · exact hnodup.1 (List.mem_map.2 ⟨p, hp, he⟩)
    have hall := ih hfirst hdone' (fun p hp => hseeds p (List.mem_cons_of_mem _ hp)) hnodup.2 hnew'
    exact hall.congr fun t => by rw [List.map_cons, List.mem_cons, or_assoc]

/-! ## Longer spans -/

/-- The edges of all divisions are a basis of a span of several words whose parts have been
filled. -/
theorem basis_joined (hn : words.length = n) (h : chart.Filled g unknown words done)
    (hs : 1 < s.length) (hparts : ∀ t, t.length < s.length → done t) :
    chart.Basis g unknown words s
      (s.splits.flatMap fun p => chart.joined (.ofGrammar g) p.1 p.2) := by
  have hi := RuleIndex.agrees_ofGrammar g
  have hjoined : ∀ {left right : Span n} {edge : Edge κ}, (left, right) ∈ s.splits →
      (edge ∈ chart.joined (.ofGrammar g) left right ↔
        ∃ rule label first second a b, rule ∈ (RuleIndex.ofGrammar g).rules ∧
          rule.label? = some label ∧ rule.rhs.symbols = [first, second] ∧
          chart.best? left first = some a ∧ chart.best? right second = some b ∧
          edge = .binary label (rule.cost + chart.costOf a + chart.costOf b) a b) := by
    intro left right edge hsplit
    obtain ⟨hl, hr⟩ := Span.length_lt_of_mem_splits hsplit
    exact mem_joined hi h.wellFormed (h.settled left (hparts left hl)).indexed
      (h.settled right (hparts right hr)).indexed
  refine ⟨fun edge he => ?_, fun hlength => absurd hlength (Nat.ne_of_gt hs), ?_⟩
  · obtain ⟨⟨left, right⟩, hsplit, hedge⟩ := List.mem_flatMap.1 he
    obtain ⟨rule, label, first, second, a, b, hr, hl, hover, ha, hb, rfl⟩ :=
      (hjoined hsplit).1 hedge
    -- The tree of the new edge stands over the trees of the two parts.
    obtain ⟨l, hleft, lreading⟩ := h.sound left first a ha
    obtain ⟨r, hright, rreading⟩ := h.sound right second b hb
    obtain ⟨h1, h2, -⟩ := Span.mem_splits.1 hsplit
    refine ⟨.node label [l, r], by rw [treeOver?, hleft, hright]; rfl, ⟨rfl, ?_, ?_, ?_⟩,
      Tree.below?_binary label l r⟩
    · rw [Tree.words_binary, lreading.words, rreading.words, Span.pick_append hsplit]
    · exact .binary hr hl (by rw [lreading.label, rreading.label, hover]) lreading.derives
        rreading.derives
    · refine .binary (h1 ▸ lreading.inOrder) ?_
      rw [lreading.words, left.length_pick hn, ← h1, left.start_add_length, h2]
      exact rreading.inOrder
  · intro rule label first second left right a b hsplit hr hl hover ha hb
    refine ⟨_, List.mem_flatMap.2 ⟨(left, right), hsplit, (hjoined hsplit).2
      ⟨rule, label, first, second, a, b, hr, hl, hover, ha, hb, rfl⟩⟩, rfl, rfl⟩

/-- Going through the divisions of a span whose parts have been filled offers it all edges that the
rules make at them. -/
theorem foldl_splits (h : chart.Filled g unknown words done)
    (hparts : ∀ t, t.length < s.length → done t) :
    s.splits.foldl (Chart.divide (.ofGrammar g) s) chart =
      chart.offerAll s (s.splits.flatMap fun p => chart.joined (.ofGrammar g) p.1 p.2) := by
  refine foldl_divide (RuleIndex.agrees_ofGrammar g) h.wellFormed ?_ (Grows.refl s chart)
  rintro ⟨left, right⟩ hp
  obtain ⟨hl, hr⟩ := Span.length_lt_of_mem_splits hp
  obtain ⟨hleft, hright⟩ := parts_ne (Nat.le_refl _) hp
  exact ⟨hleft, hright, (h.settled left (hparts left hl)).indexed,
    (h.settled right (hparts right hr)).indexed⟩

/-- A span of several words is filled from its divisions. -/
theorem combine (hn : words.length = n) (h : chart.Filled g unknown words done) (hnew : ¬ done s)
    (hlonger : ∀ t, done t → t.length ≤ s.length) (hs : 1 < s.length)
    (hparts : ∀ t, t.length < s.length → done t) :
    (Chart.combine (.ofGrammar g) chart s).Filled g unknown words fun t => done t ∨ t = s := by
  rw [Chart.combine, h.foldl_splits hparts]
  exact h.extend hn hnew hlonger (h.basis_joined hn hs hparts)

/-- The spans of several words are filled one after the other, the shortest ones first. -/
theorem several (hn : words.length = n) (h : chart.Filled g unknown words fun t => t.length = 1)
    (front back : List (Span n)) (hall : Span.several n = front ++ back) :
    (front.foldl (Chart.combine (.ofGrammar g)) chart).Filled g unknown words
      fun t => t.length = 1 ∨ t ∈ front := by
  induction front using List.reverseRecOn generalizing back with
  | nil => exact h.congr (by simp)
  | append_singleton front s ih =>
    rw [List.append_assoc, List.singleton_append] at hall
    have hturn := Span.turn_of_several_eq hall
    have hs := hturn.several
    rw [List.foldl_append, List.foldl_cons, List.foldl_nil]
    have hcombined := (ih (s :: back) hall).combine hn ?_ ?_ hs ?_
    · refine hcombined.congr fun t => ?_
      rw [List.mem_append, List.mem_singleton, or_assoc]
    · rintro (hone | hmem)
      · omega
      · exact hturn.not_mem_front hmem
    · rintro t (hone | hmem)
      · omega
      · exact hturn.le_of_mem_front hmem
    · exact fun t hlt => hturn.one_or_mem_front hlt

end Filled

/-! ## The whole chart -/

/-- The chart of a sentence in which the spans of single words have been filled. -/
def seeded (index : RuleIndex κ) (words : List (String × List (Candidate κ))) :
    Chart κ words.length :=
  ((Span.ofLength words.length 1).zip words).foldl (Chart.seed index) (Chart.empty words.length)

/-- After the single words, the spans of several words are gone through. -/
theorem fill_eq_foldl (index : RuleIndex κ) (words : List (String × List (Candidate κ))) :
    Chart.fill index words =
      (Span.several words.length).foldl (Chart.combine index) (seeded index words) := by
  rw [Span.several, List.foldl_flatMap]
  rfl

/-- The spans of single words have been filled from the candidates of the words. -/
theorem filled_seeded {tagged : List (String × List (Candidate κ))}
    (htag : ∀ p ∈ tagged, g.tag unknown p.1 = .ok p.2) :
    (seeded (.ofGrammar g) tagged).Filled g unknown (tagged.map Prod.fst)
      fun t => t.length = 1 := by
  have hn : (tagged.map Prod.fst).length = tagged.length := List.length_map _
  have hlength : ((Span.ofLength tagged.length 1).zip tagged).map Prod.fst =
      Span.ofLength tagged.length 1 := by
    refine List.map_fst_zip ?_
    have hstarts := congrArg List.length (Span.ofLength_one tagged.length)
    rw [List.length_map, List.length_range] at hstarts
    exact Nat.le_of_eq hstarts
  have hseeds : ∀ p ∈ (Span.ofLength tagged.length 1).zip tagged, p.1.length = 1 ∧
      (tagged.map Prod.fst)[p.1.start]? = some p.2.1 ∧ g.tag unknown p.2.1 = .ok p.2.2 := by
    intro p hp
    obtain ⟨place, hplace⟩ := List.mem_iff_getElem?.1 hp
    obtain ⟨hspan, hword⟩ := List.getElem?_zip_eq_some.1 hplace
    have hstart : p.1.start = place := by
      have hmap := congrArg (·[place]?) (Span.ofLength_one tagged.length)
      simp only [List.getElem?_map, hspan, Option.map_some] at hmap
      obtain ⟨hlt, hget⟩ := List.getElem?_eq_some_iff.1 hmap.symm
      rw [← hget, List.getElem_range]
    refine ⟨Span.mem_ofLength.1 (List.mem_of_getElem? hspan), ?_,
      htag p.2 (List.mem_of_getElem? hword)⟩
    rw [hstart, List.getElem?_map, hword]
    rfl
  have hseeded := (Filled.empty g unknown (tagged.map Prod.fst)).foldl_seed hn
    (fun _ => False.elim) hseeds (by rw [hlength]; exact Span.nodup_ofLength _ 1) (fun _ _ => id)
  refine hseeded.congr fun t => ?_
  rw [hlength, Span.mem_ofLength, false_or]

/-- The chart of a sentence has all its spans filled. -/
theorem filled_fill {tagged : List (String × List (Candidate κ))}
    (htag : ∀ p ∈ tagged, g.tag unknown p.1 = .ok p.2) :
    (Chart.fill (.ofGrammar g) tagged).Filled g unknown (tagged.map Prod.fst) fun _ => True := by
  have hall := (filled_seeded htag).several (List.length_map _) _ [] (List.append_nil _).symm
  rw [fill_eq_foldl]
  refine hall.congr fun t => ?_
  have hpos := t.length_pos
  rw [Span.mem_several, true_iff]
  omega

end Chart

end Constituency
