import Constituency.Proofs.Decoding.Division
import Constituency.Proofs.Decoding.Readings

/-!
# Finished cells

Once a cell is finished it holds every label that the tagger and the rules ask for (`Settled`), and
its best edges are as cheap as those rules ask, as far as the order of its labels allows (`Priced`).
Both depend on the cell and on those of shorter spans only, so they stay when longer spans and other
spans of the same length are filled.
-/

namespace Constituency

namespace Chart

variable {κ : Type} [Cost κ] {n : Nat}

/-! ## Finishing -/

section Finish

variable {index : RuleIndex κ} {chart : Chart κ n} {s : Span n}

/-- There is nothing to close in a cell without labels. -/
theorem closeUnary_of_labels_nil (h : (chart.cell s).labels = []) :
    chart.closeUnary index s = chart := by
  rw [closeUnary, h, Closure.waves]
  rfl

/-- Finishing a cell keeps the edges of the closure. -/
theorem edge?_finish (chart : Chart κ n) (index : RuleIndex κ) (s : Span n) (number : Nat) :
    (chart.finish index s).edge? number = (chart.closeUnary index s).edge? number := by
  unfold finish
  split
  · rename_i hnone
    rw [closeUnary_of_labels_nil (by rw [cell, hnone]; rfl)]
  · rfl

/-- Finishing a cell keeps the best edges of the closure, in all cells. -/
theorem best_finish (chart : Chart κ n) (index : RuleIndex κ) (s t : Span n) :
    ((chart.finish index s).cell t).best = ((chart.closeUnary index s).cell t).best := by
  unfold finish
  split
  · rename_i hnone
    rw [closeUnary_of_labels_nil (by rw [cell, hnone]; rfl)]
  · rw [Chart.index]
    by_cases ht : t = s
    · subst ht
      rw [cell_setCell_self]
      rfl
    · rw [cell, cell?_setCell_of_ne _ ht, cell]

/-- The best edge of a label after the cell has been finished. -/
theorem best?_finish (chart : Chart κ n) (index : RuleIndex κ) (s t : Span n) (label : String) :
    (chart.finish index s).best? t label = (chart.closeUnary index s).best? t label := by
  rw [best?, best?, best_finish]

/-- The labels after the cell has been finished. -/
theorem labels_finish (chart : Chart κ n) (index : RuleIndex κ) (s t : Span n) :
    ((chart.finish index s).cell t).labels = ((chart.closeUnary index s).cell t).labels := by
  rw [Cell.labels, best_finish, Cell.labels]

/-- A finished cell lists the binary rules that can use its labels. -/
theorem indexed_finish (chart : Chart κ n) (index : RuleIndex κ) (s : Span n) :
    (chart.finish index s).Indexed index s := by
  unfold finish
  split
  · rename_i hnone
    rw [Indexed, cell, hnone]
    rfl
  · rw [Indexed, Chart.index, cell_setCell_self]
    rfl

/-- Finishing makes a chart grow out of its closure. -/
theorem grows_finish_of_closeUnary (chart : Chart κ n) (index : RuleIndex κ) (s : Span n) :
    (chart.closeUnary index s).Grows s (chart.finish index s) where
  edge h := (edge?_finish chart index s _).trans h
  cell {t} ht := by
    unfold finish
    split
    · rename_i hnone
      rw [closeUnary_of_labels_nil (by rw [cell, hnone]; rfl)]
    · exact cell?_setCell_of_ne _ ht _
  labels := by
    have hlabels := labels_finish chart index s s
    exact hlabels ▸ List.prefix_refl _

/-- Finishing makes a chart grow. -/
theorem grows_finish (hi : index.Agrees) (hw : chart.WellFormed) (s : Span n) :
    chart.Grows s (chart.finish index s) := by
  refine Grows.trans ?_ (grows_finish_of_closeUnary chart index s)
  rw [closeUnary_eq_sweep hi hw s]
  exact grows_sweep chart index s _

/-- A chart stays well-formed when a cell is finished. -/
theorem WellFormed.finish (hi : index.Agrees) (hw : chart.WellFormed) (s : Span n) :
    (chart.finish index s).WellFormed := by
  have hclosed : (chart.closeUnary index s).WellFormed := by
    rw [closeUnary_eq_sweep hi hw s]
    exact hw.sweep index s _
  refine ⟨fun t => ?_, fun {t label number} hb => ?_⟩
  · rw [labels_finish]
    exact hclosed.nodup t
  · rw [best?_finish] at hb
    obtain ⟨edge, he, hl⟩ := hclosed.edge hb
    exact ⟨edge, by rw [edge?_finish, he], hl⟩

/-- Finishing a cell makes no difference to what its labels cost in the closure. -/
theorem hasWithin_finish {label : String} {bound : κ} :
    (chart.finish index s).HasWithin s label bound ↔
      (chart.closeUnary index s).HasWithin s label bound := by
  simp only [HasWithin, best?_finish, costOf, edge?_finish]

end Finish

variable {g : Grammar κ} {unknown : UnknownWords κ} {words : List String} {chart next : Chart κ n}
  {s t : Span n}

/-- A finished cell holds readings, if it held readings before in which no chain had begun. -/
theorem Sound.finish (hn : words.length = n) (hw : chart.WellFormed)
    (hother : ∀ t, t ≠ s → chart.Backed t (Reading g unknown words chart.Before t))
    (h : chart.Backed s fun label cost t =>
      Reading g unknown words chart.Before s label cost t ∧ t.below? = none) :
    (chart.finish (.ofGrammar g) s).Sound g unknown words := by
  have hi := RuleIndex.agrees_ofGrammar g
  have hgrows := grows_finish hi hw s
  intro t
  by_cases ht : t = s
  · subst ht
    have hclosed := closeUnary_eq_sweep hi hw t
    -- The cell has the order of labels that the sweep has left it with.
    have hbefore : ∀ {lower upper : String},
        [lower, upper].Sublist ((chart.sweep (.ofGrammar g) t
          ((chart.closeUnary (.ofGrammar g) t).cell t).labels.length).cell t).labels →
        (chart.finish (.ofGrammar g) t).Before t.start t.stop lower upper := by
      intro lower upper hsub
      rw [← hclosed, ← labels_finish] at hsub
      exact ⟨t, rfl, rfl, hsub⟩
    have hbacked := backed_sweep hn hw hbefore
      (h.mono fun ⟨hreading, hnone⟩ => ⟨hreading.mono hgrows.before, hnone⟩) (Nat.le_refl _)
    rw [← hclosed] at hbacked
    refine Backed.of_best?_eq (hbacked.mono And.left) ?_
      (grows_finish_of_closeUnary chart (.ofGrammar g) t) (best?_finish chart _ t t)
    rw [hclosed]
    exact hw.sweep _ t _
  · exact ((hother t ht).mono fun hreading => hreading.mono hgrows.before).of_best?_eq hw hgrows
      (hgrows.best?_eq ht)

/-! ## Labels -/

/-- A cell holds every label that the tagger and the rules ask for, and lists the binary rules that
can use its labels. -/
structure Settled (g : Grammar κ) (unknown : UnknownWords κ) (words : List String)
    (chart : Chart κ n) (s : Span n) : Prop where
  /-- The cell lists the binary rules. -/
  indexed : chart.Indexed (.ofGrammar g) s
  /-- The cell of a word has all candidates of the word. -/
  word : ∀ {text : String} {candidates : List (Candidate κ)} {candidate : Candidate κ},
    s.length = 1 → words[s.start]? = some text → g.tag unknown text = .ok candidates →
    candidate ∈ candidates → candidate.tag ∈ (chart.cell s).labels
  /-- The cell has what the rules make of one of its labels. -/
  unary : ∀ {rule : Rule κ} {label symbol : String}, rule ∈ (RuleIndex.ofGrammar g).rules →
    rule.label? = some label → rule.rhs.symbols = [symbol] →
    symbol ∈ (chart.cell s).labels → label ∈ (chart.cell s).labels
  /-- The cell has what the rules make of labels of its parts. -/
  binary : ∀ {rule : Rule κ} {label first second : String} {left right : Span n},
    (left, right) ∈ s.splits → rule ∈ (RuleIndex.ofGrammar g).rules →
    rule.label? = some label → rule.rhs.symbols = [first, second] →
    first ∈ (chart.cell left).labels → second ∈ (chart.cell right).labels →
    label ∈ (chart.cell s).labels

/-- The parts of a span are other spans than one that is as long or longer. -/
theorem parts_ne {left right : Span n} (hle : t.length ≤ s.length) (h : (left, right) ∈ t.splits) :
    left ≠ s ∧ right ≠ s := by
  obtain ⟨hl, hr⟩ := Span.length_lt_of_mem_splits h
  refine ⟨?_, ?_⟩
  · rintro rfl
    omega
  · rintro rfl
    omega

/-- A settled cell stays settled while another span that is as long or longer is filled. -/
theorem Settled.grows (h : chart.Settled g unknown words t) (hg : chart.Grows s next) (ht : t ≠ s)
    (hle : t.length ≤ s.length) : next.Settled g unknown words t := by
  refine ⟨?_, ?_, ?_, fun {rule label first second left right} hsplit hr hl hover hf hs => ?_⟩
  · rw [Indexed, hg.cell_eq ht]
    exact h.indexed
  · rw [hg.cell_eq ht]
    exact h.word
  · rw [hg.cell_eq ht]
    exact h.unary
  · obtain ⟨hleft, hright⟩ := parts_ne hle hsplit
    rw [hg.cell_eq hleft] at hf
    rw [hg.cell_eq hright] at hs
    rw [hg.cell_eq ht]
    exact h.binary hsplit hr hl hover hf hs

/-! ## Costs -/

/-- The best edges of a cell are as cheap as the tagger and the rules ask, where `met` bounds what
the labels cost when the closure met them. -/
structure Priced (g : Grammar κ) (unknown : UnknownWords κ) (words : List String)
    (chart : Chart κ n) (s : Span n) (met : String → κ → Prop) : Prop where
  /-- A label is at most as dear as it was when it was met. -/
  within : ∀ {label : String} {bound : κ}, met label bound → chart.HasWithin s label bound
  /-- A candidate is met at most at its cost. -/
  word : ∀ {text : String} {candidates : List (Candidate κ)} {candidate : Candidate κ},
    s.length = 1 → words[s.start]? = some text → g.tag unknown text = .ok candidates →
    candidate ∈ candidates → met candidate.tag candidate.cost
  /-- What a rule makes of labels of the parts is met at most at the cost of the rule and theirs. -/
  binary : ∀ {rule : Rule κ} {label first second : String} {left right : Span n} {a b : κ},
    (left, right) ∈ s.splits → rule ∈ (RuleIndex.ofGrammar g).rules →
    rule.label? = some label → rule.rhs.symbols = [first, second] →
    chart.HasWithin left first a → chart.HasWithin right second b → met label (rule.cost + a + b)
  /-- What a rule makes of a label ends up at most at the cost of the rule and of the label when it
  was met. -/
  unary : ∀ {rule : Rule κ} {label symbol : String} {bound : κ},
    rule ∈ (RuleIndex.ofGrammar g).rules → rule.label? = some label →
    rule.rhs.symbols = [symbol] → met symbol bound →
    chart.HasWithin s label (rule.cost + bound)
  /-- If it comes later in the cell, it is met at most at that cost. -/
  chain : ∀ {rule : Rule κ} {label symbol : String} {bound : κ},
    rule ∈ (RuleIndex.ofGrammar g).rules → rule.label? = some label →
    rule.rhs.symbols = [symbol] → met symbol bound →
    [symbol, label].Sublist (chart.cell s).labels → met label (rule.cost + bound)

/-- A priced cell stays priced while another span that is as long or longer is filled. -/
theorem Priced.grows {met : String → κ → Prop} (h : chart.Priced g unknown words t met)
    (hw : chart.WellFormed) (hg : chart.Grows s next) (ht : t ≠ s) (hle : t.length ≤ s.length) :
    next.Priced g unknown words t met := by
  refine ⟨fun hmet => ?_, h.word, ?_, fun hr hl hover hmet => ?_, ?_⟩
  · exact (hg.hasWithin_iff hw ht).2 (h.within hmet)
  · intro rule label first second left right a b hsplit hr hl hover ha hb
    obtain ⟨hleft, hright⟩ := parts_ne hle hsplit
    rw [hg.hasWithin_iff hw hleft] at ha
    rw [hg.hasWithin_iff hw hright] at hb
    exact h.binary hsplit hr hl hover ha hb
  · exact (hg.hasWithin_iff hw ht).2 (h.unary hr hl hover hmet)
  · rw [hg.cell_eq ht]
    exact h.chain

end Chart

end Constituency
