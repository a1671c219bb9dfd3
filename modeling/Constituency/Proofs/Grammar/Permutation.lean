import Constituency.Proofs.Grammar.Shares
import Mathlib.Data.List.Perm.Basic

/-!
# The order of occurrences

A grammar keeps rules, words and parts of speech in the order in which they first occurred, but what
it says of each of them does not depend on this order, as long as occurrences of the same rule
differ in their marks alone (`Rule.Uniform`). Then the tallies are the same (`ofOccurrences_perm`),
and so are the prices that are made of them; estimation lists the same rules and the same parts of
speech, maybe in another order (`estimate_perm`).
-/

namespace Constituency

variable {κ : Type}

/-- Occurrences of the same rule differ in their marks alone. -/
def Rule.Uniform (rules : List (Rule κ)) : Prop :=
  ∀ rule ∈ rules, ∀ other ∈ rules, rule.key = other.key →
    rule.lhs = other.lhs ∧ rule.rhs = other.rhs ∧ rule.cost = other.cost

/-- The order of the occurrences of one rule does not matter to its tally. -/
theorem Tally.ofOccurrences_perm {first second : List (Rule κ)} (h : first.Perm second)
    (hsame : ∀ rule ∈ first, ∀ other ∈ first,
      rule.lhs = other.lhs ∧ rule.rhs = other.rhs ∧ rule.cost = other.cost) :
    ofOccurrences first = ofOccurrences second := by
  cases first with
  | nil => rw [h.nil_eq]
  | cons rule rest =>
    cases second with
    | nil => exact absurd h.symm.nil_eq (List.cons_ne_nil rule rest).symm
    | cons other others =>
      have hother : other ∈ rule :: rest := h.symm.subset List.mem_cons_self
      obtain ⟨hlhs, hrhs, hcost⟩ := hsame rule List.mem_cons_self other hother
      rw [ofOccurrences, ofOccurrences, h.any_eq, h.any_eq, h.length_eq, hlhs, hrhs, hcost]

namespace Grammar

/-- Grammars that say the same of every rule, of every word and of every part of speech, maybe in
another order. -/
structure Reordered (g other : Grammar κ) : Prop where
  /-- A rule has the same tally in both: its sides, its marks and its count. -/
  counts : ∀ key, g.counts.find? key = other.counts.find? key
  /-- The syntactic rules are the same, with their marks and their costs. -/
  syntactic : g.syntactic.Perm other.syntactic
  /-- The rules of a word are the same, and the known words are. -/
  lexicon : ∀ word, Option.Rel List.Perm (g.lexicon.find? word) (other.lexicon.find? word)
  /-- The parts of speech of unknown words are the same, with their costs. -/
  smoothing : g.smoothing.Perm other.smoothing

/-! ## Counts and prices -/

section Counts

variable {rules others : List (Rule κ)}

/-- The order in which rules are counted does not matter to their tallies. -/
theorem find?_counts_perm (h : rules.Perm others) (huniform : Rule.Uniform rules) (key : RuleKey) :
    ((empty : Grammar κ).countAll rules).counts.find? key =
      (empty.countAll others).counts.find? key := by
  rw [find?_counts_countAll, find?_counts_countAll]
  -- The occurrences of one key are those of one rule.
  refine Tally.ofOccurrences_perm (h.filter _) fun rule hrule other hother => ?_
  obtain ⟨hrule, hkey⟩ := List.mem_filter.1 hrule
  obtain ⟨hother, hkey'⟩ := List.mem_filter.1 hother
  exact huniform rule hrule other hother ((eq_of_beq hkey).trans (eq_of_beq hkey').symm)

/-- The order in which rules are counted does not matter to the totals of left-hand sides. -/
theorem totalOf_perm (h : rules.Perm others) (lhs : String) :
    ((empty : Grammar κ).countAll rules).totalOf lhs = (empty.countAll others).totalOf lhs := by
  rw [totalOf_countAll, totalOf_countAll, h.countP_eq]

/-- The tallies are the same, maybe in another order. -/
theorem entries_perm (h : rules.Perm others) (huniform : Rule.Uniform rules) :
    ((empty : Grammar κ).countAll rules).counts.entries.Perm
      (empty.countAll others).counts.entries :=
  OrderedMap.entries_perm (nodup_keys_countAll rules) (nodup_keys_countAll others)
    (find?_counts_perm h huniform)

variable [Cost κ]

/-- The priced rules are the same, maybe in another order. -/
theorem priced_perm (h : rules.Perm others) (huniform : Rule.Uniform rules) :
    ((empty : Grammar κ).countAll rules).priced.Perm (empty.countAll others).priced := by
  have hprice : ((empty : Grammar κ).countAll rules).totalOf = (empty.countAll others).totalOf :=
    funext (totalOf_perm h)
  let price (total : String → Nat) (entry : RuleKey × Tally κ) : Rule κ :=
    { entry.2.rule with cost := Cost.ofShare entry.2.count (total entry.1.1) }
  have hmap : ∀ rules : List (Rule κ), (empty.countAll rules).priced =
      (empty.countAll rules).counts.entries.map (price (empty.countAll rules).totalOf) :=
    fun _ => rfl
  rw [hmap, hmap, hprice]
  exact (entries_perm h huniform).map _

end Counts

/-! ## The lexicon -/

section Lexicon

variable {rules others : List (Rule κ)}

/-- A word is unknown to the lexicon of a list of rules if none of them has it on the right. -/
theorem find?_lexiconOf_eq_none_iff {word : String} :
    (lexiconOf rules).find? word = none ↔ rules.filter (·.rhs.text == word) = [] := by
  rw [← getD_find?_lexiconOf]
  cases hfound : (lexiconOf rules).find? word with
  | none => exact ⟨fun _ => rfl, fun _ => rfl⟩
  | some found => exact ⟨nofun, fun hnil => absurd hnil (ne_nil_of_find?_lexiconOf hfound)⟩

/-- The order of rules does not matter to what the lexicon knows of a word. -/
theorem find?_lexiconOf_perm (h : rules.Perm others) (word : String) :
    Option.Rel List.Perm ((lexiconOf rules).find? word) ((lexiconOf others).find? word) := by
  have hfilter := h.filter (·.rhs.text == word)
  cases hfound : (lexiconOf rules).find? word with
  | none =>
    rw [find?_lexiconOf_eq_none_iff] at hfound
    have hnone : (lexiconOf others).find? word = none :=
      find?_lexiconOf_eq_none_iff.2 (hfound ▸ hfilter).nil_eq.symm
    rw [hnone]
    exact .none
  | some found =>
    cases hother : (lexiconOf others).find? word with
    | none =>
      rw [find?_lexiconOf_eq_none_iff] at hother
      have hnone := find?_lexiconOf_eq_none_iff.2 (hother ▸ hfilter).eq_nil
      exact absurd (hfound.symm.trans hnone) nofun
    | some other =>
      rw [find?_lexiconOf hfound, find?_lexiconOf hother]
      exact .some hfilter

/-- The rules of all words are those of which the lexicon has been made. -/
theorem flatten_values_lexiconOf (rules : List (Rule κ)) :
    (lexiconOf rules).values.flatten.Perm rules := by
  induction rules using List.reverseRecOn with
  | nil => exact .nil
  | append_singleton rules rule ih =>
    have happend : lexiconOf (rules ++ [rule]) =
        (lexiconOf rules).append rule.rhs.text [rule] := by
      rw [lexiconOf, List.foldl_append]
      rfl
    rw [happend]
    exact (OrderedMap.flatten_values_append _ _ _).trans (ih.append_right [rule])

/-- The order of rules does not matter to the parts of speech of the words that they know. -/
theorem lexicalTags_perm (h : rules.Perm others) :
    (lexicalTags (lexiconOf rules)).Perm (lexicalTags (lexiconOf others)) := by
  have hvalues := (flatten_values_lexiconOf rules).trans
    (h.trans (flatten_values_lexiconOf others).symm)
  exact (hvalues.filter Rule.isUnary).filterMap Rule.label?

end Lexicon

/-! ## The smoothing list -/

section Smoothing

variable [Cost κ]

/-- The order of parts of speech does not matter to their costs. -/
theorem smoothingOf_perm {tags others : List String} (h : tags.Perm others) :
    (smoothingOf tags : List (TagCost κ)).Perm (smoothingOf others) := by
  have hfind : ∀ tag, (tagCounts tags).find? tag = (tagCounts others).find? tag := by
    intro tag
    rw [find?_tagCounts, find?_tagCounts, h.count_eq, if_congr h.mem_iff rfl rfl]
  have hentries := OrderedMap.entries_perm (nodup_keys_tagCounts tags)
    (nodup_keys_tagCounts others) hfind
  rw [smoothingOf_eq_map, smoothingOf_eq_map, h.length_eq]
  exact hentries.map _

end Smoothing

/-- The order in which rules are counted does not matter to the estimated grammar. -/
theorem estimate_perm [Cost κ] {rules others : List (Rule κ)} (h : rules.Perm others)
    (huniform : Rule.Uniform rules) :
    (empty.countAll rules).estimate.Reordered (empty.countAll others).estimate := by
  have hpriced := priced_perm h huniform
  have hlexical := hpriced.filter Rule.lexical
  refine ⟨find?_counts_perm h huniform, ?_, ?_, ?_⟩
  · exact hpriced.filter _
  · exact find?_lexiconOf_perm hlexical
  · exact smoothingOf_perm (lexicalTags_perm hlexical)

end Grammar

end Constituency
