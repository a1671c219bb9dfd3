import Constituency.Proofs.Grammar.Partition
import Constituency.Proofs.Training

/-!
# Where a counted rule is found

A rule is identified by the texts of its sides, so a part of speech over a word and a category over
a category are one rule if the texts are the same, and an occurrence of either kind adds to its
tally. Estimation puts a rule with a lexical occurrence under its word and every other rule among
the syntactic ones (`Placed`, `placed_estimate`). Hence no counted rule is lost, but one that occurs
in both ways is found under its word alone, and what was counted of the category is added to the
count of the word.
-/

namespace Constituency

variable {κ : Type}

namespace Grammar

open Rule (everLexical_iff mem_identities)
open Training (productions)

/-- Where a grammar has the rules that have been counted. -/
structure Placed (g : Grammar κ) (counted : List (Rule κ)) : Prop where
  /-- A rule that was counted as a lexical one is among those of its word. -/
  lexical : ∀ rule ∈ counted, rule.lexical = true →
    ∃ found, g.lexicon.find? rule.rhs.text = some found ∧ rule.key ∈ found.map Rule.key
  /-- A rule is a syntactic one exactly if it was never counted as a lexical one. -/
  syntactic : ∀ rule ∈ counted, rule.key ∈ g.syntactic.map Rule.key ↔
    ∀ other ∈ counted, other.key = rule.key → other.lexical = false

/-- A counted rule with a lexical occurrence is found under its word, and every other counted rule
is a syntactic one. -/
theorem placed_countAll [Cost κ] (counted : List (Rule κ)) :
    (empty.countAll counted).estimate.Placed counted := by
  constructor
  · intro rule hrule hlexical
    obtain ⟨s, hs, hkey⟩ := exists_mem_priced hrule
    -- The mark of one occurrence is that of the rule that is kept.
    have hmark : s.lexical = true := by
      rw [lexical_of_mem_priced counted hs, everLexical_iff]
      exact ⟨rule, hrule, hkey.symm, hlexical⟩
    obtain ⟨found, hfound, hmem⟩ := exists_find?_lexiconOf (List.mem_filter.2 ⟨hs, hmark⟩)
    have hword : s.rhs.text = rule.rhs.text := congrArg Prod.snd hkey
    rw [hword] at hfound
    exact ⟨found, hfound, hkey ▸ List.mem_map_of_mem hmem⟩
  · -- The syntactic rules are those without a lexical occurrence.
    intro rule hrule
    have hlisted : rule.key ∈ Rule.identities counted := mem_identities.2 ⟨rule, hrule, rfl⟩
    rw [(apportioned_countAll counted).syntactic, List.mem_filter, Bool.not_eq_true',
      Bool.eq_false_iff, Ne, everLexical_iff]
    constructor
    · intro h other hother hkey
      rw [Bool.eq_false_iff]
      exact fun hlexical => h.2 ⟨other, hother, hkey, hlexical⟩
    · intro h
      refine ⟨hlisted, ?_⟩
      rintro ⟨other, hother, hkey, hlexical⟩
      exact absurd hlexical (Bool.eq_false_iff.1 (h other hother hkey))

/-- Every rule that has been counted is found where its occurrences put it, in any grammar that is
estimated from counts, and so in every trained one, which has counted the productions of its trees
that need no binarization. -/
theorem placed_estimate [Cost κ] :
    (∀ counted : List (Rule κ), (empty.countAll counted).estimate.Placed counted) ∧
      ∀ (b : Binarizer κ) (trees : List Tree),
        (b.train trees).grammar.Placed (b.counted trees) ∧
          ∀ rule ∈ productions trees, rule.rhs.size ≤ 2 → rule ∈ b.counted trees := by
  refine ⟨placed_countAll, fun b trees => ⟨?_, fun rule hrule hsize => b.mem_counted hrule hsize⟩⟩
  rw [b.grammar_train_eq]
  exact placed_countAll _

/-- A tree in which `TO` is a word below `PP`, and one in which it is a category there. -/
def prepositions : List Tree :=
  [.node "PP" [.leaf "TO"], .node "PP" [.node "TO" [.leaf "to"]]]

/-- After training on these trees the word is known as a `PP`, and no syntactic rule rewrites `PP`
to `TO`. -/
theorem placed_estimate_prepositions :
    (∃ found, (train .unbounded prepositions : Training.Result WholeCost).grammar.lexicon.find?
        "TO" = some found ∧ ("PP", "TO") ∈ found.map Rule.key) ∧
      ("PP", "TO") ∉ (train .unbounded prepositions :
        Training.Result WholeCost).grammar.syntactic.map Rule.key := by
  let word : Rule WholeCost := ⟨.single "PP", .single "TO", ⟨0⟩, true, true⟩
  obtain ⟨hplaced, hcounted⟩ := (@placed_estimate WholeCost _).2 (.new .unbounded) prepositions
  have hword : word ∈ productions prepositions := by decide +kernel
  have hmem := hcounted word hword (by decide)
  refine ⟨hplaced.lexical word hmem rfl, fun hsyntactic => ?_⟩
  exact absurd ((hplaced.syntactic word hmem).1 hsyntactic word hmem rfl) nofun

/-- Two occurrences of a rule, one of either kind. -/
def bothWays : List (Rule Float) := [.ofWord "PP" "TO" 0, .plain (.single "PP") (.single "TO") 0]

/-- It does not hold of all rules with one symbol on the left that each is found in every way in
which it has been counted. -/
theorem not_found_both_ways :
    ¬ ∀ counted : List (Rule Float), (∀ rule ∈ counted, rule.lhs.size = 1) →
      (∀ rule ∈ counted, rule.lexical = false →
        rule.key ∈ (empty.countAll counted).estimate.syntactic.map Rule.key) ∧
      ∀ rule ∈ counted, rule.lexical = true →
        ∃ found, (empty.countAll counted).estimate.lexicon.find? rule.rhs.text = some found ∧
          rule.key ∈ found.map Rule.key := by
  intro h
  have hsize : ∀ rule ∈ bothWays, rule.lhs.size = 1 := by
    intro rule hrule
    rcases List.mem_pair.1 hrule with rfl | rfl <;> rfl
  have hmem := (h bothWays hsize).1 _ (List.mem_cons_of_mem _ List.mem_cons_self) rfl
  have hnone : (empty.countAll bothWays).estimate.syntactic = [] := rfl
  rw [hnone] at hmem
  exact absurd hmem List.not_mem_nil

end Grammar

end Constituency
