import Constituency.Proofs.Cost
import Constituency.Proofs.Grammar.Permutation
import Constituency.Proofs.Tagging.Steps
import Constituency.Proofs.Training

/-!
# When estimation fails

The smoothing list counts the lexical rules of each part of speech, so it cannot be derived if there
is a lexical rule with one symbol on the right and none on the left. That is the only reason
(`tryRebuildSmoothing_eq_ok_iff`, `tryEstimate_eq_ok_iff`), and where there is no such rule
estimation comes to what is stated without failure. A history that does not fail comes to the same
(`after_of_tryAfter`). Operations on rules with one symbol on the left never fail
(`Serviceable.tryAfter`), and neither does a training run: the rules of trees have one symbol on the
left, and so have the rules of their chains (`Binarizer.Keeps.tryEstimate_train`).
-/

namespace Constituency

variable {κ : Type}

namespace Rule

/-- A rule can be counted for the smoothing list: if it has one symbol on the right, it has one on
the left to be counted under. -/
def Named (rule : Rule κ) : Prop := rule.isUnary = true → rule.lhs.symbols ≠ []

/-- A rule has one symbol on the left. -/
def OneLeft (rule : Rule κ) : Prop := rule.lhs.symbols.length = 1

/-- A rule with one symbol on the left is named. -/
theorem OneLeft.named {rule : Rule κ} (h : rule.OneLeft) : rule.Named :=
  fun _ => List.ne_nil_of_length_eq_add_one h

/-- Rules have their labels exactly if each has a symbol on the left. -/
theorem mapM_label_eq_ok_iff {rules : List (Rule κ)} {labels : List String} :
    rules.mapM label = .ok labels ↔
      (∀ rule ∈ rules, rule.lhs.symbols ≠ []) ∧ rules.filterMap label? = labels := by
  rw [mapM_eq_ok_iff]
  constructor
  · intro h
    induction h with
    | nil => exact ⟨fun _ hr => absurd hr List.not_mem_nil, rfl⟩
    | @cons rule label rest labels hlabel _ ih =>
      obtain ⟨hnamed, hlabels⟩ := ih
      refine ⟨List.forall_mem_cons.2 ⟨exists_label_iff.1 ⟨label, hlabel⟩, hnamed⟩, ?_⟩
      rw [List.filterMap_cons_some (label_eq_ok_iff.1 hlabel), hlabels]
  · rintro ⟨hnamed, rfl⟩
    induction rules with
    | nil => exact .nil
    | cons rule rest ih =>
      obtain ⟨hrule, hrest⟩ := List.forall_mem_cons.1 hnamed
      obtain ⟨label, hlabel⟩ := exists_label_iff.2 hrule
      rw [List.filterMap_cons_some (label_eq_ok_iff.1 hlabel)]
      exact .cons hlabel (ih hrest)

end Rule

namespace Grammar

section Estimation

variable [Cost κ] {g estimated : Grammar κ}

/-- The smoothing list is derived exactly if the rules of the lexicon are named. -/
theorem tryRebuildSmoothing_eq_ok_iff :
    g.tryRebuildSmoothing = .ok estimated ↔
      (∀ rule ∈ g.lexicon.values.flatten, rule.Named) ∧ g.rebuildSmoothing = estimated := by
  have htags : ∀ tags, tryLexicalTags g.lexicon = .ok tags ↔
      (∀ rule ∈ g.lexicon.values.flatten, rule.Named) ∧ lexicalTags g.lexicon = tags := by
    intro tags
    rw [tryLexicalTags, Rule.mapM_label_eq_ok_iff, List.forall_mem_filter]
    rfl
  rw [tryRebuildSmoothing, bind_eq_ok_iff]
  constructor
  · rintro ⟨tags, hok, hresult⟩
    obtain ⟨hnamed, rfl⟩ := (htags tags).1 hok
    exact ⟨hnamed, Except.ok.inj hresult⟩
  · rintro ⟨hnamed, rfl⟩
    exact ⟨_, (htags _).2 ⟨hnamed, rfl⟩, rfl⟩

/-- A grammar is estimated exactly if the lexical rules that have been counted are named. -/
theorem tryEstimate_eq_ok_iff :
    g.tryEstimate = .ok estimated ↔
      (∀ tally ∈ g.counts.values, tally.rule.lexical = true → tally.rule.Named) ∧
        g.estimate = estimated := by
  have hlisted : (∀ rule ∈ g.listed.lexicon.values.flatten, rule.Named) ↔
      ∀ rule ∈ g.priced.filter Rule.lexical, rule.Named :=
    forall_congr' fun rule => imp_congr_left (flatten_values_lexiconOf _).mem_iff
  -- A priced rule is a counted one with another cost, which does not matter here.
  have hpriced : (∀ rule ∈ g.priced.filter Rule.lexical, rule.Named) ↔
      ∀ tally ∈ g.counts.values, tally.rule.lexical = true → tally.rule.Named := by
    rw [List.forall_mem_filter, priced, List.forall_mem_map, OrderedMap.values, List.forall_mem_map]
    rfl
  rw [tryEstimate, tryRebuildSmoothing_eq_ok_iff, hlisted, hpriced]
  rfl

/-- A lexical rule without a symbol on the left makes estimation fail. -/
example : ((empty : Grammar WholeCost).count ⟨⟨[]⟩, ⟨["w"]⟩, ⟨0⟩, true, false⟩).tryEstimate =
    .error ⟨⟨["w"]⟩⟩ := by decide

/-! ## Histories -/

/-- The grammar after an operation, unless it fails. -/
def tryPerform (g : Grammar κ) : Operation κ → Except UnnamedRule (Grammar κ)
  | .estimate => g.tryEstimate
  | .rebuildSmoothing => g.tryRebuildSmoothing
  | operation => .ok (g.perform operation)

/-- The grammar after a history of operations, unless one of them fails. -/
def tryAfter (g : Grammar κ) (history : List (Operation κ)) : Except UnnamedRule (Grammar κ) :=
  history.foldlM tryPerform g

/-- An operation that does not fail comes to what is stated without failure. -/
theorem perform_of_tryPerform {operation : Operation κ} {next : Grammar κ}
    (h : g.tryPerform operation = .ok next) : g.perform operation = next := by
  cases operation with
  | estimate => exact (tryEstimate_eq_ok_iff.1 h).2
  | rebuildSmoothing => exact (tryRebuildSmoothing_eq_ok_iff.1 h).2
  | _ => exact Except.ok.inj h

/-- A history that does not fail comes to what is stated without failure. -/
theorem after_of_tryAfter {history : List (Operation κ)} {last : Grammar κ}
    (h : g.tryAfter history = .ok last) : g.after history = last := by
  induction history generalizing g with
  | nil => exact Except.ok.inj h
  | cons operation rest ih =>
    rw [tryAfter, List.foldlM_cons, bind_eq_ok_iff] at h
    obtain ⟨next, hnext, hrest⟩ := h
    obtain rfl := perform_of_tryPerform hnext
    exact ih hrest

/-- An operation on a serviceable grammar does not fail. -/
theorem Serviceable.tryPerform (h : g.Serviceable) (operation : Operation κ) :
    g.tryPerform operation = .ok (g.perform operation) := by
  cases operation with
  | estimate =>
    exact tryEstimate_eq_ok_iff.2 ⟨fun tally ht _ => Rule.OneLeft.named (h.counted tally ht), rfl⟩
  | rebuildSmoothing =>
    refine tryRebuildSmoothing_eq_ok_iff.2 ⟨fun rule hr => ?_, rfl⟩
    obtain ⟨rules, hrules, hr⟩ := List.mem_flatten.1 hr
    exact Rule.OneLeft.named ((h.lexical rules hrules).2 rule hr)
  | _ => rfl

/-- A history of operations on a serviceable grammar does not fail if they are given rules with one
symbol on the left. -/
theorem Serviceable.tryAfter (h : g.Serviceable) {history : List (Operation κ)}
    (hgiven : ∀ rule ∈ history.flatMap Operation.given, rule.lhs.symbols.length = 1) :
    g.tryAfter history = .ok (g.after history) := by
  induction history generalizing g with
  | nil => rfl
  | cons operation rest ih =>
    rw [List.flatMap_cons, List.forall_mem_append] at hgiven
    rw [Grammar.tryAfter, List.foldlM_cons, h.tryPerform operation]
    exact ih (h.perform hgiven.1) hgiven.2

/-- Counting rules with one symbol on the left makes a serviceable grammar. -/
theorem serviceable_countAll {rules : List (Rule κ)}
    (h : ∀ rule ∈ rules, rule.OneLeft) : ((empty : Grammar κ).countAll rules).Serviceable := by
  have hafter : empty.countAll rules = empty.after (rules.map .count) := by
    rw [after, List.foldl_map]
    rfl
  have hgiven : (rules.map Operation.count).flatMap Operation.given = rules := by
    rw [List.flatMap_map]
    exact List.flatMap_singleton' rules
  rw [hafter]
  exact serviceable_empty.after (hgiven.symm ▸ h)

end Estimation

end Grammar

/-! ## Training -/

/-- A production has one symbol on the left. -/
theorem Tree.oneLeft_of_mem_productions [Cost κ] {t : Tree} {rule : Rule κ}
    (h : rule ∈ t.productions) : rule.OneLeft := by
  obtain ⟨u, mark, -, -, rfl⟩ := exists_of_mem_rulesFrom (mem_productions.1 h).2
  rfl

namespace Binarizer

variable [Cost κ] {b : Binarizer κ} {m : Markovization}

/-- A binarizer that keeps the chains of rules with one symbol on the left makes such rules of such
a rule. -/
theorem Keeps.oneLeft_binarize (h : b.Keeps m Rule.OneLeft) {rule : Rule κ} (hrule : rule.OneLeft) :
    ∀ piece ∈ (b.binarize rule).2, piece.OneLeft := by
  intro piece hpiece
  by_cases hsize : 2 < rule.rhs.size
  · obtain ⟨other, hother, -, hchain⟩ := h.exists_chain hsize
    have hone : other.OneLeft := hother.elim (fun hsame => hsame ▸ hrule) id
    rw [hchain] at hpiece
    obtain ⟨link, hlink, hlhs, -⟩ := Markovization.exists_of_mem_withTop hpiece
    rw [Rule.OneLeft, hlhs]
    -- A rule of a chain rewrites what the divided rule does, or an introduced symbol.
    rcases Markovization.lhs_eq_or_introduced_of_mem_chain hlink with hsame | ⟨history, hname⟩
    · exact hsame ▸ hone
    · rw [hname]
      rfl
  · rw [Binarizer.binarize, if_pos (Nat.le_of_not_lt hsize)] at hpiece
    exact List.mem_singleton.1 hpiece ▸ hrule

/-- A binarizer that keeps the chains of rules with one symbol on the left makes such rules of such
rules. -/
theorem Keeps.oneLeft_binarizeAll (h : b.Keeps m Rule.OneLeft) {rules : List (Rule κ)}
    (hrules : ∀ rule ∈ rules, rule.OneLeft) :
    ∀ piece ∈ (b.binarizeAll rules).2, piece.OneLeft := by
  induction rules generalizing b with
  | nil => exact fun _ hpiece => absurd hpiece List.not_mem_nil
  | cons rule rest ih =>
    obtain ⟨hrule, hrest⟩ := List.forall_mem_cons.1 hrules
    rw [Binarizer.binarizeAll]
    exact List.forall_mem_append.2 ⟨h.oneLeft_binarize hrule, ih (h.binarize hrule) hrest⟩

/-- The rules that a training run counts have one symbol on the left. -/
theorem Keeps.oneLeft_counted (h : b.Keeps m Rule.OneLeft) (trees : List Tree) :
    ∀ rule ∈ b.counted trees, rule.OneLeft := by
  induction trees generalizing b with
  | nil => exact fun _ hrule => absurd hrule List.not_mem_nil
  | cons t rest ih =>
    have hproductions : ∀ rule ∈ (t.productions : List (Rule κ)), rule.OneLeft :=
      fun _ hr => Tree.oneLeft_of_mem_productions hr
    rw [counted]
    exact List.forall_mem_append.2
      ⟨h.oneLeft_binarizeAll hproductions, ih (h.binarizeAll hproductions)⟩

/-- Whatever the trees are, a training run estimates what it counts without failing. -/
theorem Keeps.tryEstimate_train (h : b.Keeps m Rule.OneLeft) (trees : List Tree) :
    (Grammar.empty.countAll (b.counted trees)).tryEstimate = .ok (b.train trees).grammar := by
  rw [b.grammar_train_eq]
  exact (Grammar.serviceable_countAll (h.oneLeft_counted trees)).tryPerform .estimate

/-- After a training run a binarizer still keeps none but the chains of rules with one symbol on the
left, so that it can be used for another run. -/
theorem Keeps.oneLeft_train (h : b.Keeps m Rule.OneLeft) (trees : List Tree) :
    (b.train trees).binarizer.Keeps m Rule.OneLeft := by
  refine h.binarizer_train fun rule hr => ?_
  obtain ⟨t, -, hr⟩ := List.mem_flatMap.1 hr
  exact Tree.oneLeft_of_mem_productions hr

end Binarizer

/-- Training a grammar on trees does not fail. -/
theorem tryEstimate_train [Cost κ] (m : Markovization) (trees : List Tree) :
    (Grammar.empty.countAll ((Binarizer.new m : Binarizer κ).counted trees)).tryEstimate =
      .ok (train m trees).grammar :=
  (Binarizer.keeps_new m Rule.OneLeft).tryEstimate_train trees

end Constituency
