import Constituency.Proofs.Grammar.Estimation
import Constituency.Proofs.Grammar.Text

/-!
# Histories of a grammar

A grammar comes about by operations on one in which nothing has been counted: the empty one, or one
that has been read from texts. Only counting changes the counts, so after any history they are those
of the rules that have been counted in its course (`counts_after`), and an estimated grammar is the
same after every history with the same counted rules (`estimate_after`). An operation that derives
the smoothing list may fail; what is stated here is what it comes to when it does not.
-/

namespace Constituency

variable {κ : Type}

/-- What can be done to a grammar. -/
inductive Operation (κ : Type) where
  /-- An occurrence of a rule is counted. -/
  | count (rule : Rule κ)
  /-- The rules, the lexicon and the smoothing list are derived from the counts. -/
  | estimate
  /-- A syntactic rule is added. -/
  | insertSyntactic (rule : Rule κ)
  /-- A part of speech of a word is added. -/
  | insertLexical (word : String) (entry : TagCost κ)
  /-- A part of speech of unknown words is added. -/
  | insertSmoothing (entry : TagCost κ)
  /-- The smoothing list is derived from the lexicon. -/
  | rebuildSmoothing
  deriving DecidableEq

/-- The rule that an operation counts, if it counts one. -/
def Operation.counted : Operation κ → List (Rule κ)
  | count rule => [rule]
  | _ => []

namespace Grammar

section Histories

variable [Cost κ]

/-- The grammar after an operation. -/
def perform (g : Grammar κ) : Operation κ → Grammar κ
  | .count rule => g.count rule
  | .estimate => g.estimate
  | .insertSyntactic rule => g.insertSyntactic rule
  | .insertLexical word entry => g.insertLexical word entry
  | .insertSmoothing entry => g.insertSmoothing entry
  | .rebuildSmoothing => g.rebuildSmoothing

/-- The grammar after a history of operations. -/
def after (g : Grammar κ) (history : List (Operation κ)) : Grammar κ := history.foldl perform g

/-- Only counting changes the counts. -/
theorem counts_perform (g : Grammar κ) (operation : Operation κ) :
    (g.perform operation).counts = (g.countAll operation.counted).counts := by
  cases operation <;> rfl

/-- After a history the counts are those of the rules that have been counted in its course. -/
theorem counts_after (g : Grammar κ) (history : List (Operation κ)) :
    (g.after history).counts = (g.countAll (history.flatMap Operation.counted)).counts := by
  induction history generalizing g with
  | nil => rfl
  | cons operation rest ih =>
    have hrest : (g.after (operation :: rest)).counts = ((g.perform operation).after rest).counts :=
      rfl
    rw [hrest, ih, List.flatMap_cons, countAll_append, counts_countAll, counts_countAll,
      counts_perform]

omit [Cost κ] in
/-- Counting does not depend on anything but the counts. -/
theorem counts_countAll_congr {g other : Grammar κ} (h : g.counts = other.counts)
    (rules : List (Rule κ)) : (g.countAll rules).counts = (other.countAll rules).counts := by
  rw [counts_countAll, counts_countAll, h]

/-- Estimation does not depend on anything but the counts. -/
theorem estimate_congr {g other : Grammar κ} (h : g.counts = other.counts) :
    g.estimate = other.estimate := by
  obtain ⟨counts, syntactic, lexicon, smoothing⟩ := g
  obtain rfl : counts = other.counts := h
  rfl

/-- After a history on a grammar in which nothing had been counted, estimation comes to what it
makes of the rules that have been counted in its course, whatever else has been done. -/
theorem estimate_after {start : Grammar κ} (h : start.counts = .empty)
    (history : List (Operation κ)) :
    (start.after history).estimate =
      (empty.countAll (history.flatMap Operation.counted)).estimate := by
  refine estimate_congr ?_
  rw [counts_after]
  exact counts_countAll_congr h _

end Histories

/-- Nothing has been counted in a grammar that has been read from texts. -/
theorem counts_ofText {rules lexicon : String} {g : Grammar Float}
    (h : ofText rules lexicon = .ok g) : g.counts = .empty := (loaded_of_ofText h).counts

end Grammar

end Constituency
