import Constituency.Proofs.Chart.Trees
import Constituency.Proofs.Decoding.Sweep
import Constituency.Proofs.Grammar.Derivations

/-!
# What the edges of a chart stand for

The best edge of a label stands for a tree that the grammar derives over the words of the span, at
the cost of the edge, with that label at its root (`Reading`). An edge stays what it is when a
better one takes its place, so the edges made over it keep their trees.

The sweep through a cell makes an edge over the best one of the label that it has come to. That edge
was in the cell before the closure or was made over a label met earlier. So the unary chains of the
trees climb in the order of the labels (`backed_sweep`).
-/

namespace Constituency

namespace Chart

variable {κ : Type} [Cost κ] {n : Nat}

/-- The cell of the span from one position to another has one label before another one. -/
def Before (chart : Chart κ n) (start stop : Nat) (lower upper : String) : Prop :=
  ∃ s : Span n, s.start = start ∧ s.stop = stop ∧
    [lower, upper].Sublist (chart.cell s).labels

omit [Cost κ] in
/-- Labels that come in an order do so when the chart grows. -/
theorem Grows.before {s : Span n} {a b : Chart κ n} (h : a.Grows s b) {start stop : Nat}
    {lower upper : String} (hbefore : a.Before start stop lower upper) :
    b.Before start stop lower upper := by
  obtain ⟨t, hstart, hstop, hsub⟩ := hbefore
  exact ⟨t, hstart, hstop, hsub.trans (h.labels_prefix t).sublist⟩

/-- The best edges of a span stand for trees with a property that may depend on the label and the
cost. -/
def Backed (chart : Chart κ n) (s : Span n) (P : String → κ → Tree → Prop) : Prop :=
  ∀ label number, chart.best? s label = some number →
    ∃ t, chart.tree? number = some t ∧ P label (chart.costOf number) t

namespace Backed

variable {chart next : Chart κ n} {s u : Span n} {P Q : String → κ → Tree → Prop}

/-- A property that follows from another one. -/
theorem mono (h : chart.Backed s P) (hle : ∀ {label cost t}, P label cost t → Q label cost t) :
    chart.Backed s Q := by
  intro label number hb
  obtain ⟨t, ht, hp⟩ := h label number hb
  exact ⟨t, ht, hle hp⟩

/-- What the best edges of a span stand for does not change while these stay the best. -/
theorem of_best?_eq (h : chart.Backed s P) (hw : chart.WellFormed) (hg : chart.Grows u next)
    (hbest : ∀ label, next.best? s label = chart.best? s label) : next.Backed s P := by
  intro label number hb
  rw [hbest] at hb
  obtain ⟨t, ht, hp⟩ := h label number hb
  obtain ⟨edge, he, -⟩ := hw.edge hb
  exact ⟨t, hg.tree?_eq ht, by rw [hg.costOf_eq he]; exact hp⟩

/-- What the best edges stand for after an edge with a tree of that property has been offered. -/
theorem offered (h : chart.Backed s P) (hw : chart.WellFormed) {edge : Edge κ} {t : Tree}
    (ht : chart.treeOver? edge = some t) (hp : P edge.label edge.cost t) :
    (chart.offered s edge).Backed s P := by
  intro label number hb
  rcases chart.offered_cases s edge with ⟨-, ho⟩ | ⟨-, ho⟩
  · rw [ho, best?_place_self] at hb
    rw [ho]
    split at hb
    · rename_i hl
      obtain rfl := Option.some.inj hb
      refine ⟨t, tree?_place s ht, ?_⟩
      rw [costOf_of_edge? (by rw [edge?_place, if_pos rfl]), hl]
      exact hp
    · obtain ⟨t', ht', hp'⟩ := h label number hb
      obtain ⟨old, he, -⟩ := hw.edge hb
      have hg := chart.grows_place s edge
      exact ⟨t', hg.tree?_eq ht', by rw [hg.costOf_eq he]; exact hp'⟩
  · rw [ho] at hb ⊢
    exact h label number hb

/-- What the best edges stand for after edges with trees of that property have been offered. -/
theorem offerAll (h : chart.Backed s P) (hw : chart.WellFormed) {edges : List (Edge κ)}
    (hedges : ∀ edge ∈ edges, ∃ t, chart.treeOver? edge = some t ∧ P edge.label edge.cost t) :
    (chart.offerAll s edges).Backed s P := by
  induction edges generalizing chart with
  | nil => exact h
  | cons edge rest ih =>
    rw [offerAll_cons]
    obtain ⟨t, ht, hp⟩ := hedges edge List.mem_cons_self
    refine ih (h.offered hw ht hp) (hw.offered s edge) fun other ho => ?_
    obtain ⟨t', ht', hp'⟩ := hedges other (List.mem_cons_of_mem _ ho)
    exact ⟨t', (chart.grows_offered s edge).treeOver?_eq ht', hp'⟩

end Backed

/-! ## Readings -/

/-- What the tree of an edge is: it has the label of the edge and the words of the span, the grammar
derives it at the cost of the edge, and its chains climb in an order. -/
structure Reading (g : Grammar κ) (unknown : UnknownWords κ) (words : List String)
    (before : Nat → Nat → String → String → Prop) (s : Span n) (label : String) (cost : κ)
    (t : Tree) : Prop where
  /-- The root has the label. -/
  label : t.label = label
  /-- The words are those of the span. -/
  words : t.words = s.pick words
  /-- The grammar derives the tree at the cost. -/
  derives : g.Derives unknown t cost
  /-- The chains climb in the order. -/
  inOrder : t.InOrder before s.start

variable {g : Grammar κ} {unknown : UnknownWords κ} {words : List String} {s : Span n}

/-- A tree whose chains climb in an order is a reading for any order that has more pairs. -/
theorem Reading.mono {before after : Nat → Nat → String → String → Prop}
    (hle : ∀ {start stop : Nat} {lower upper : String},
      before start stop lower upper → after start stop lower upper)
    {label : String} {cost : κ} {t : Tree} (h : Reading g unknown words before s label cost t) :
    Reading g unknown words after s label cost t :=
  ⟨h.label, h.words, h.derives, h.inOrder.mono hle⟩

/-- Every best edge of a chart stands for a reading whose chains climb in the order of the
labels. -/
def Sound (g : Grammar κ) (unknown : UnknownWords κ) (words : List String) (chart : Chart κ n) :
    Prop :=
  ∀ s, chart.Backed s (Reading g unknown words chart.Before s)

/-- One label of a list comes before another one that has a later place. -/
theorem sublist_of_mem_take {labels : List String} {place : Nat} {lower upper : String}
    (hl : lower ∈ labels.take place) (hu : labels[place]? = some upper) :
    [lower, upper].Sublist labels := by
  have hlower : [lower].Sublist (labels.take place) := List.singleton_sublist.2 hl
  have hupper : [upper].Sublist (labels.drop place) := by
    obtain ⟨hlt, rfl⟩ := List.getElem?_eq_some_iff.1 hu
    rw [List.drop_eq_getElem_cons hlt]
    exact List.singleton_sublist.2 List.mem_cons_self
  have hboth := hlower.append hupper
  rwa [List.take_append_drop] at hboth

/-- A rule over the reading of a label that the sweep has come to makes a reading. -/
theorem Reading.raise (hn : words.length = n) {before : Nat → Nat → String → String → Prop}
    {symbol label : String} {cost : κ} {t : Tree}
    (h : Reading g unknown words before s symbol cost t)
    (hbelow : ∀ lower, t.below? = some lower → before s.start s.stop lower symbol)
    {rule : Rule κ} (hr : rule ∈ (RuleIndex.ofGrammar g).rules) (hl : rule.label? = some label)
    (hover : rule.rhs.symbols = [symbol]) :
    Reading g unknown words before s label (rule.cost + cost) (.node label [t]) where
  label := rfl
  words := by rw [Tree.words_unary, h.words]
  derives := .unary hr hl (by rw [h.label]; exact hover) h.derives
  inOrder := by
    refine .unary h.inOrder fun lower hlower => ?_
    rw [h.words, s.length_pick hn, s.start_add_length, h.label]
    exact hbelow lower hlower

/-- Up to each of its places, the sweep through a cell makes readings whose chains climb in the
order of the labels, from readings in which no chain has begun. -/
theorem backed_sweep (hn : words.length = n) {chart : Chart κ n} (hw : chart.WellFormed)
    {last : Nat} {before : Nat → Nat → String → String → Prop}
    (hbefore : ∀ {lower upper : String},
      [lower, upper].Sublist ((chart.sweep (.ofGrammar g) s last).cell s).labels →
      before s.start s.stop lower upper)
    (h : chart.Backed s fun label cost t =>
      Reading g unknown words before s label cost t ∧ t.below? = none)
    {count : Nat} (hle : count ≤ last) :
    (chart.sweep (.ofGrammar g) s count).Backed s fun label cost t =>
      Reading g unknown words before s label cost t ∧ ∀ lower, t.below? = some lower →
        lower ∈ ((chart.sweep (.ofGrammar g) s last).cell s).labels.take count := by
  have hi := RuleIndex.agrees_ofGrammar g
  induction count with
  | zero =>
    refine h.mono fun ⟨hreading, hnone⟩ => ⟨hreading, fun lower hlower => ?_⟩
    exact absurd (hnone.symm.trans hlower) nofun
  | succ count ih =>
    -- The invariant: the only child of a root that a rule has made is among the labels met so far.
    have ih := ih (Nat.le_of_succ_le hle)
    have hmono : (chart.sweep (.ofGrammar g) s count).Backed s fun label cost t =>
        Reading g unknown words before s label cost t ∧ ∀ lower, t.below? = some lower →
          lower ∈ ((chart.sweep (.ofGrammar g) s last).cell s).labels.take (count + 1) :=
      ih.mono fun ⟨hreading, hbelow⟩ => ⟨hreading, fun lower hlower =>
        (List.take_subset_take_left _ (Nat.le_succ count)) (hbelow lower hlower)⟩
    rw [sweep_succ]
    cases hl : ((chart.sweep (.ofGrammar g) s count).cell s).labels[count]? with
    | none =>
      rw [climb_of_none hl]
      exact hmono
    | some symbol =>
      rw [climb_of_label hl]
      have hfinal : ((chart.sweep (.ofGrammar g) s last).cell s).labels[count]? = some symbol :=
        (grows_sweep_sweep chart (.ofGrammar g) s (Nat.le_of_succ_le hle)).label_eq hl
      refine hmono.offerAll (hw.sweep _ s count) fun edge he => ?_
      obtain ⟨child, rule, label, hchild, hr, hlabel, hover, rfl⟩ := (mem_raised hi).1 he
      obtain ⟨t, ht, hreading, hbelow⟩ := ih symbol child hchild
      refine ⟨.node label [t], by rw [treeOver?, ht]; rfl, ?_, fun lower hlower => ?_⟩
      · refine hreading.raise hn (fun lower hlower => hbefore ?_) hr hlabel hover
        exact sublist_of_mem_take (hbelow lower hlower) hfinal
      · -- The only child of the new root has the label that the sweep has come to.
        rw [Tree.below?_unary hreading.derives.isLeaf, hreading.label, Option.some.injEq] at hlower
        subst hlower
        obtain ⟨hlt, hget⟩ := List.getElem?_eq_some_iff.1 hfinal
        rw [List.take_succ_eq_append_getElem hlt, hget]
        exact List.mem_append_right _ (List.mem_singleton.2 rfl)

end Chart

end Constituency
