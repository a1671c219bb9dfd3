import Constituency.Proofs.Cost
import Constituency.Proofs.Grammar.History
import Constituency.Proofs.Grammar.Permutation

/-!
# Estimation divides the counted rules

Every rule that has been counted is listed once by the estimated grammar, in the order of first
occurrences: among the syntactic rules if no occurrence of it was lexical, else among the rules of
its word in the lexicon. It is priced by its share in the occurrences of its left-hand side, and the
shares of the rules of one left-hand side, in both places together, make up the whole
(`Apportioned`, `estimate_apportioned`).
-/

namespace Constituency

variable {κ : Type}

namespace Rule

/-- What identifies the rules of a list: each of them once, in the order of first occurrences. -/
def identities (rules : List (Rule κ)) : List RuleKey := (rules.map key).eraseDups

/-- The occurrences of a rule in a list. -/
def occurrences (rules : List (Rule κ)) (identity : RuleKey) : List (Rule κ) :=
  rules.filter (·.key == identity)

/-- Whether an occurrence of a rule is lexical. -/
def everLexical (rules : List (Rule κ)) (identity : RuleKey) : Bool :=
  (occurrences rules identity).any lexical

/-- Whether an occurrence of a rule is that at a root. -/
def everTop (rules : List (Rule κ)) (identity : RuleKey) : Bool :=
  (occurrences rules identity).any top

/-- What identifies a rule of a list is that of an occurrence. -/
theorem mem_identities {rules : List (Rule κ)} {identity : RuleKey} :
    identity ∈ identities rules ↔ ∃ rule ∈ rules, rule.key = identity := by
  rw [identities, List.mem_eraseDups, List.mem_map]

/-- The rules of a list are told apart. -/
theorem nodup_identities (rules : List (Rule κ)) : (identities rules).Nodup :=
  OrderedMap.nodup_eraseDups _

/-- An occurrence of a rule is lexical if one of the rules that are the same is. -/
theorem everLexical_iff {rules : List (Rule κ)} {identity : RuleKey} :
    everLexical rules identity = true ↔
      ∃ rule ∈ rules, rule.key = identity ∧ rule.lexical = true := by
  simp only [everLexical, occurrences, List.any_eq_true, List.mem_filter, beq_iff_eq, and_assoc]

end Rule

/-- A tally has the rule as it first occurred, with the marks of all occurrences. -/
theorem Tally.exists_first {found : List (Rule κ)} {tally : Tally κ}
    (h : ofOccurrences found = some tally) :
    ∃ first, found.head? = some first ∧
      tally.rule = { first with lexical := found.any Rule.lexical, top := found.any Rule.top } := by
  cases found with
  | nil => exact absurd h nofun
  | cons first rest =>
    obtain rfl := Option.some.inj h
    exact ⟨first, rfl, rfl⟩

namespace Grammar

open Rule (identities occurrences everLexical everTop)

/-- The rules of a grammar, the syntactic ones and those of the words. -/
def rules (g : Grammar κ) : List (Rule κ) := g.syntactic ++ g.lexicon.values.flatten

/-- What an estimated grammar says of the rules that have been counted. -/
structure Apportioned [Cost κ] (g : Grammar κ) (counted : List (Rule κ)) : Prop where
  /-- The syntactic rules are those without a lexical occurrence, in order. -/
  syntactic : g.syntactic.map Rule.key =
    (identities counted).filter fun identity => !everLexical counted identity
  /-- The words are those of the rules with a lexical occurrence, and each has these rules, in
  order. -/
  lexicon : g.lexicon.entries.map (fun entry => (entry.1, entry.2.map Rule.key)) =
    (((identities counted).filter (everLexical counted)).map Prod.snd).eraseDups.map fun word =>
      (word, ((identities counted).filter (everLexical counted)).filter (·.2 == word))
  /-- A rule is listed as it first occurred, with the marks of all its occurrences. -/
  rule : ∀ s ∈ g.rules, ∃ first, (occurrences counted s.key).head? = some first ∧
    s = { first with
      cost := s.cost
      lexical := everLexical counted s.key
      top := everTop counted s.key }
  /-- A rule has been counted at every occurrence. -/
  count : ∀ identity, g.countOf identity = (occurrences counted identity).length
  /-- The total of a left-hand side is found, and it is the sum of the counts of its rules. -/
  total : ∀ rule ∈ counted, g.totals.find? rule.lhs.text =
    some (((identities counted).filter (·.1 == rule.lhs.text)).map g.countOf).sum
  /-- A rule is priced by its count and the total of its left-hand side. -/
  cost : ∀ s ∈ g.rules, s.cost = Cost.ofShare (g.countOf s.key) (g.totalOf s.lhs.text)
  /-- The share of a rule is a positive one, and at most the whole. -/
  share : ∀ s ∈ g.rules, 0 < g.totalOf s.lhs.text ∧ 0 < g.share s ∧ g.share s ≤ 1
  /-- The shares of the rules of a left-hand side make up the whole. -/
  sum_share : ∀ rule ∈ counted,
    ((g.rules.filter (·.lhs.text == rule.lhs.text)).map g.share).sum = 1

/-! ## Counts and totals -/

section Counts

variable (counted : List (Rule κ))

/-- The counted rules are listed in the order of first occurrences. -/
theorem keys_counts_countAll :
    ((empty : Grammar κ).countAll counted).counts.keys = identities counted := by
  rw [counts_countAll]
  exact OrderedMap.keys_foldl_alter Rule.key Tally.add counted

/-- The total of a left-hand side is the sum of the counts of its rules. -/
theorem totalOf_eq_sum_countOf (lhs : String) :
    ((empty : Grammar κ).countAll counted).totalOf lhs =
      (((identities counted).filter (·.1 == lhs)).map (empty.countAll counted).countOf).sum := by
  rw [totalOf_eq_sumOver, sumOver, ← keys_counts_countAll, OrderedMap.keys, List.filter_map,
    List.map_map]
  refine congrArg List.sum (List.map_congr_left fun entry hentry => ?_)
  -- The keys are distinct, so an entry is what is found under its key.
  have hfind := (OrderedMap.mem_entries_iff (nodup_keys_countAll counted)).1
    (List.mem_filter.1 hentry).1
  rw [Function.comp_apply, countOf, hfind, Option.map_some, Option.getD_some]

variable {counted}

/-- The total of the left-hand side of a counted rule is found. -/
theorem find?_totals_countAll {rule : Rule κ} (h : rule ∈ counted) :
    ((empty : Grammar κ).countAll counted).totals.find? rule.lhs.text =
      some ((empty.countAll counted).totalOf rule.lhs.text) := by
  have hlhs : (identities counted).map Prod.fst =
      ((empty : Grammar κ).countAll counted).counts.entries.map fun entry => entry.1.1 := by
    rw [← keys_counts_countAll, OrderedMap.keys, List.map_map]
    rfl
  have hkeys : ((empty : Grammar κ).countAll counted).totals.keys =
      ((identities counted).map Prod.fst).eraseDups := by
    rw [hlhs]
    exact OrderedMap.keys_foldl_alter (fun entry : RuleKey × Tally κ => entry.1.1)
      (fun entry present => present.getD 0 + entry.2.count) _
  have hmem : rule.lhs.text ∈ ((empty : Grammar κ).countAll counted).totals.keys := by
    rw [hkeys, List.mem_eraseDups]
    exact List.mem_map_of_mem (f := Prod.fst) (Rule.mem_identities.2 ⟨rule, h, rfl⟩)
  obtain ⟨total, htotal⟩ := OrderedMap.exists_find?_of_mem_keys hmem
  rw [totalOf, htotal, Option.getD_some]

/-- A counted rule has been counted, and not more often than its left-hand side. -/
theorem countOf_pos_and_le {rule : Rule κ} (h : rule ∈ counted) :
    0 < ((empty : Grammar κ).countAll counted).countOf rule.key ∧
      (empty.countAll counted).countOf rule.key ≤
        (empty.countAll counted).totalOf rule.lhs.text := by
  rw [countOf_countAll, totalOf_countAll]
  refine ⟨List.countP_pos_iff.2 ⟨rule, h, beq_self_eq_true _⟩, List.countP_mono_left ?_⟩
  intro other _ hkey
  exact beq_iff_eq.2 (congrArg Prod.fst (eq_of_beq hkey))

end Counts

/-! ## Prices -/

section Prices

variable [Cost κ] (counted : List (Rule κ))

/-- The counted rules are priced in the order of first occurrences. -/
theorem map_key_priced :
    ((empty : Grammar κ).countAll counted).priced.map Rule.key = identities counted := by
  rw [← keys_counts_countAll, OrderedMap.keys, priced, List.map_map]
  exact List.map_congr_left fun entry hentry => key_of_mem_counts hentry

/-- A priced rule is as it first occurred, with the marks of all occurrences. -/
theorem exists_first_of_mem_priced {s : Rule κ}
    (h : s ∈ ((empty : Grammar κ).countAll counted).priced) :
    ∃ first, (occurrences counted s.key).head? = some first ∧
      s = { first with
        cost := s.cost
        lexical := everLexical counted s.key
        top := everTop counted s.key } := by
  obtain ⟨⟨key, tally⟩, hentry, rfl⟩ := List.mem_map.1 h
  obtain rfl := key_of_mem_counts hentry
  rw [OrderedMap.mem_entries_iff (nodup_keys_countAll counted), find?_counts_countAll] at hentry
  obtain ⟨first, hfirst, hrule⟩ := Tally.exists_first hentry
  -- Pricing changes nothing but the cost.
  have hlhs : tally.rule.lhs = first.lhs := by rw [hrule]
  have hrhs : tally.rule.rhs = first.rhs := by rw [hrule]
  refine ⟨first, hfirst, ?_⟩
  rw [Rule.mk.injEq]
  exact ⟨hlhs, hrhs, rfl, congrArg Rule.lexical hrule, congrArg Rule.top hrule⟩

/-- A priced rule is lexical if an occurrence is. -/
theorem lexical_of_mem_priced {s : Rule κ}
    (h : s ∈ ((empty : Grammar κ).countAll counted).priced) :
    s.lexical = everLexical counted s.key := by
  obtain ⟨first, -, hs⟩ := exists_first_of_mem_priced counted h
  exact congrArg Rule.lexical hs

/-- The priced rules that are chosen by their marks are those whose occurrences are. -/
theorem map_key_filter_priced (choice : Bool → Bool) :
    (((empty : Grammar κ).countAll counted).priced.filter fun s => choice s.lexical).map Rule.key =
      (identities counted).filter fun identity => choice (everLexical counted identity) := by
  rw [← map_key_priced, List.filter_map]
  refine congrArg (List.map Rule.key) (List.filter_congr fun s hs => ?_)
  rw [Function.comp_apply, lexical_of_mem_priced counted hs]

/-- Every priced rule is among the syntactic ones or among those of its word, and there is no other
rule. -/
theorem rules_estimate_perm :
    ((empty : Grammar κ).countAll counted).estimate.rules.Perm (empty.countAll counted).priced := by
  have hlexicon := flatten_values_lexiconOf (((empty : Grammar κ).countAll counted).priced.filter
    Rule.lexical)
  -- The mark of a rule says where it goes.
  have hsplit := List.filter_append_perm Rule.lexical ((empty : Grammar κ).countAll counted).priced
  exact (hlexicon.append_left _).trans (List.perm_append_comm.trans hsplit)

/-- A rule of the estimated grammar is one of those counted. -/
theorem exists_of_mem_rules {s : Rule κ}
    (h : s ∈ ((empty : Grammar κ).countAll counted).estimate.rules) :
    ∃ rule ∈ counted, rule.key = s.key := by
  have hmem := List.mem_map_of_mem (f := Rule.key) ((rules_estimate_perm counted).subset h)
  rw [map_key_priced] at hmem
  exact Rule.mem_identities.1 hmem

end Prices

/-! ## The estimated grammar -/

/-- The lexicon of a list of rules has their words in order, each with its rules in order. -/
theorem entries_lexiconOf (listed : List (Rule κ)) :
    (lexiconOf listed).entries = (listed.map (·.rhs.text)).eraseDups.map fun word =>
      (word, listed.filter (·.rhs.text == word)) := by
  have hkeys : (lexiconOf listed).keys = (listed.map (·.rhs.text)).eraseDups :=
    OrderedMap.keys_foldl_alter (fun rule : Rule κ => rule.rhs.text)
      (fun rule present => present.getD [] ++ [rule]) listed
  rw [OrderedMap.entries_eq_map (nodup_keys_lexiconOf listed) [], hkeys]
  exact List.map_congr_left fun word _ => by rw [getD_find?_lexiconOf]

/-- The shares of the rules of a left-hand side make up the whole. -/
theorem sum_share_countAll [Cost κ] {counted : List (Rule κ)} {rule : Rule κ}
    (h : rule ∈ counted) :
    (((empty.countAll counted).estimate.rules.filter (·.lhs.text == rule.lhs.text)).map
      (empty.countAll counted).share).sum = 1 := by
  let g : Grammar κ := empty.countAll counted
  let listed : List RuleKey := (identities counted).filter (·.1 == rule.lhs.text)
  have htotal : (listed.map g.countOf).sum = g.totalOf rule.lhs.text :=
    (totalOf_eq_sum_countOf counted rule.lhs.text).symm
  have hpos : g.totalOf rule.lhs.text ≠ 0 := by
    obtain ⟨hcount, hle⟩ := countOf_pos_and_le h
    exact Nat.ne_of_gt (Nat.lt_of_lt_of_le hcount hle)
  -- The rules are the priced ones, and those of one left-hand side have one denominator.
  have hperm := ((rules_estimate_perm counted).filter (·.lhs.text == rule.lhs.text)).map g.share
  have hshares : (g.priced.filter (·.lhs.text == rule.lhs.text)).map g.share =
      listed.map fun identity => (g.countOf identity : ℚ) / g.totalOf rule.lhs.text := by
    show _ = ((identities counted).filter (·.1 == rule.lhs.text)).map _
    rw [← map_key_priced, List.filter_map, List.map_map]
    refine List.map_congr_left fun s hs => ?_
    rw [share, eq_of_beq (List.mem_filter.1 hs).2]
    rfl
  rw [hperm.sum_eq, hshares, sum_map_div htotal hpos]

/-- The grammar that is estimated from counted rules divides them and apportions what their
left-hand sides have. -/
theorem apportioned_countAll [Cost κ] (counted : List (Rule κ)) :
    (empty.countAll counted).estimate.Apportioned counted := by
  have hpriced : ∀ {s : Rule κ}, s ∈ (empty.countAll counted).estimate.rules →
      s ∈ (empty.countAll counted).priced := fun hs => (rules_estimate_perm counted).subset hs
  refine
    { syntactic := map_key_filter_priced counted not
      lexicon := ?_
      rule := fun s hs => exists_first_of_mem_priced counted (hpriced hs)
      count := fun identity => ?_
      total := fun rule hrule => ?_
      cost := fun s hs => cost_of_mem_priced (hpriced hs)
      share := fun s hs => ?_
      sum_share := fun rule hrule => sum_share_countAll hrule }
  · -- The lexicon is made of the lexical rules, which are told by their identities.
    let lexical := ((empty : Grammar κ).countAll counted).priced.filter Rule.lexical
    have hlexical : lexical.map Rule.key = (identities counted).filter (everLexical counted) :=
      map_key_filter_priced counted id
    have hentries : (empty.countAll counted).estimate.lexicon.entries =
        (lexical.map (·.rhs.text)).eraseDups.map fun word =>
          (word, lexical.filter (·.rhs.text == word)) := entries_lexiconOf lexical
    rw [hentries, ← hlexical, List.map_map, List.map_map]
    refine List.map_congr_left fun word _ => ?_
    rw [Function.comp_apply, List.filter_map]
    rfl
  · exact (countOf_countAll counted identity).trans List.countP_eq_length_filter
  · exact (find?_totals_countAll hrule).trans
      (congrArg some (totalOf_eq_sum_countOf counted rule.lhs.text))
  · -- A listed rule has been counted at least once.
    obtain ⟨rule, hrule, hkey⟩ := exists_of_mem_rules counted hs
    obtain ⟨hpos, hle⟩ := countOf_pos_and_le hrule
    have hlhs : rule.lhs.text = s.lhs.text := congrArg Prod.fst hkey
    rw [hkey] at hpos hle
    rw [hlhs] at hle
    exact ⟨Nat.lt_of_lt_of_le hpos hle, div_pos_and_le_one hpos hle⟩

/-- Whatever has been done to a grammar, estimation divides the rules that have been counted and
apportions what their left-hand sides have. It comes to the same as on a new grammar in which these
rules have been counted, so nothing that was inserted is left, and to the same once more. -/
theorem estimate_apportioned [Cost κ] {start : Grammar κ} (hstart : start.counts = .empty)
    (history : List (Operation κ)) :
    (start.after history).estimate.Apportioned (history.flatMap Operation.counted) ∧
      (start.after history).estimate =
        (empty.countAll (history.flatMap Operation.counted)).estimate ∧
      (start.after history).estimate.estimate = (start.after history).estimate := by
  have hestimate := estimate_after hstart history
  refine ⟨?_, hestimate, ?_⟩
  · rw [hestimate]
    exact apportioned_countAll _
  · -- Estimation leaves the counts as they are.
    exact estimate_congr rfl

/-- A grammar in which nothing has been counted. -/
def oldHabits : Grammar WholeCost :=
  { (empty : Grammar WholeCost) with
    syntactic := [.plain ⟨["S"]⟩ ⟨["NP"]⟩ ⟨2⟩]
    smoothing := [⟨"NP", ⟨1⟩⟩] }

/-- A history in which a rule occurs both as a lexical and as a syntactic one, and rules are
inserted before and after an estimation. -/
def dogHistory : List (Operation WholeCost) :=
  [.insertSyntactic (.plain ⟨["VP"]⟩ ⟨["VB"]⟩ ⟨3⟩), .count (.plain ⟨["NP"]⟩ ⟨["NN"]⟩ ⟨0⟩),
    .count (.plain ⟨["NN"]⟩ ⟨["dog"]⟩ ⟨0⟩), .count (.plain ⟨["NN"]⟩ ⟨["NN", "NN"]⟩ ⟨0⟩), .estimate,
    .insertLexical "cat" ⟨"NN", ⟨1⟩⟩, .count (.ofWord "NN" "dog" ⟨0⟩), .rebuildSmoothing]

/-- The rule that occurs in both ways is listed once, under its word, and it has two of the three
occurrences of its left-hand side. -/
theorem estimate_apportioned_dogHistory :
    oldHabits.counts = .empty ∧
      (oldHabits.after dogHistory).estimate.syntactic.map Rule.key =
        [("NP", "NN"), ("NN", "NN NN")] ∧
      (oldHabits.after dogHistory).estimate.lexicon.entries.map
        (fun entry => (entry.1, entry.2.map Rule.key)) = [("dog", [("NN", "dog")])] ∧
      (oldHabits.after dogHistory).estimate.totals.find? "NN" = some 3 ∧
      (oldHabits.after dogHistory).estimate.countOf ("NN", "dog") = 2 ∧
      (((oldHabits.after dogHistory).estimate.rules.filter (·.lhs.text == "NN")).map
        (oldHabits.after dogHistory).estimate.share).sum = 1 ∧
      (oldHabits.after dogHistory).estimate.estimate = (oldHabits.after dogHistory).estimate := by
  have hstart : oldHabits.counts = .empty := rfl
  obtain ⟨happortioned, -, hagain⟩ := estimate_apportioned hstart dogHistory
  have hdog : .ofWord "NN" "dog" ⟨0⟩ ∈ dogHistory.flatMap Operation.counted := by decide +kernel
  refine ⟨hstart, ?_, ?_, ?_, ?_, happortioned.sum_share _ hdog, hagain⟩
  · rw [happortioned.syntactic]
    decide +kernel
  · rw [happortioned.lexicon]
    decide +kernel
  · refine (happortioned.total _ hdog).trans ?_
    decide +kernel
  · rw [happortioned.count]
    decide +kernel

end Grammar

end Constituency
