import Constituency.Proofs.Grammar.Estimation
import Mathlib.Algebra.BigOperators.Ring.Finset
import Mathlib.Algebra.BigOperators.Ring.List
import Mathlib.Algebra.Order.Field.Rat

/-!
# Shares

Estimation prices a rule by its share: how often it was counted, out of how often its left-hand
side was. Here both numbers and their exact quotient are read off a grammar (`share`), and the
numbers are found to be those of the occurrences in the list that was counted (`countOf_countAll`,
`totalOf_countAll`), so that shares are quotients of frequencies.
-/

namespace Constituency.Grammar

variable {κ : Type}

/-- How often a rule was counted. -/
def countOf (g : Grammar κ) (key : RuleKey) : Nat := ((g.counts.find? key).map Tally.count).getD 0

/-- How often the rules with a certain text on the left were counted. -/
def totalOf (g : Grammar κ) (lhs : String) : Nat := (g.totals.find? lhs).getD 0

/-- The exact share of a rule in the occurrences of its left-hand side. -/
def share (g : Grammar κ) (rule : Rule κ) : ℚ := g.countOf rule.key / g.totalOf rule.lhs.text

/-- A part of a whole has a positive share of it, and at most all of it. -/
theorem div_pos_and_le_one {part whole : Nat} (hpos : 0 < part) (hle : part ≤ whole) :
    0 < (part : ℚ) / whole ∧ (part : ℚ) / whole ≤ 1 := by
  have hwhole : (0 : ℚ) < whole := Nat.cast_pos.2 (Nat.lt_of_lt_of_le hpos hle)
  exact ⟨div_pos (Nat.cast_pos.2 hpos) hwhole, (div_le_one₀ hwhole).2 (Nat.cast_le.2 hle)⟩

/-- The shares of the parts of a whole make it up. -/
theorem sum_map_div {α : Type} {parts : List α} {size : α → Nat} {whole : Nat}
    (hparts : (parts.map size).sum = whole) (hne : whole ≠ 0) :
    (parts.map fun part => (size part : ℚ) / whole).sum = 1 := by
  have hsum : (parts.map fun part => (size part : ℚ)).sum = whole := by
    rw [← hparts, Nat.cast_list_sum, List.map_map]
    rfl
  simp only [div_eq_mul_inv]
  rw [List.sum_map_mul_right, hsum, mul_inv_cancel₀ (Nat.cast_ne_zero.2 hne)]

/-! ## Counting -/

/-- The number that a tally of occurrences holds. -/
theorem count_ofOccurrences (occurrences : List (Rule κ)) :
    ((Tally.ofOccurrences occurrences).map Tally.count).getD 0 = occurrences.length := by
  cases occurrences <;> rfl

/-- A rule is counted as often as it occurs. -/
theorem countOf_countAll (rules : List (Rule κ)) (key : RuleKey) :
    ((empty : Grammar κ).countAll rules).countOf key = rules.countP (·.key == key) := by
  rw [countOf, find?_counts_countAll, count_ofOccurrences, List.countP_eq_length_filter]

/-- The sum of the counts of the entries with a certain text on the left. -/
def sumOver (lhs : String) (entries : List (RuleKey × Tally κ)) : Nat :=
  ((entries.filter (·.1.1 == lhs)).map (·.2.count)).sum

/-- The sum with one more entry. -/
theorem sumOver_cons (lhs : String) (entry : RuleKey × Tally κ)
    (entries : List (RuleKey × Tally κ)) :
    sumOver lhs (entry :: entries) =
      (if entry.1.1 == lhs then entry.2.count else 0) + sumOver lhs entries := by
  unfold sumOver
  rw [List.filter_cons]
  split
  · rw [List.map_cons, List.sum_cons]
  · rw [Nat.zero_add]

/-- One more occurrence adds to the tally. -/
theorem count_add (rule : Rule κ) (present : Option (Tally κ)) :
    (Tally.add rule present).count = (present.map Tally.count).getD 0 + 1 := by
  cases present <;> rfl

/-- Counting a rule adds one to the sum over its left-hand side and to no other. -/
theorem sumOver_alterEntries (lhs : String) (rule : Rule κ)
    (entries : List (RuleKey × Tally κ)) :
    sumOver lhs (OrderedMap.alterEntries rule.key (Tally.add rule) entries) =
      sumOver lhs entries + if rule.lhs.text == lhs then 1 else 0 := by
  induction entries with
  | nil =>
    rw [OrderedMap.alterEntries, sumOver_cons, count_add, Nat.add_comm]
    rfl
  | cons entry rest ih =>
    obtain ⟨key, tally⟩ := entry
    rw [OrderedMap.alterEntries]
    split
    · rename_i hkey
      have hlhs : rule.lhs.text = key.1 := by rw [eq_of_beq hkey]; rfl
      rw [sumOver_cons, sumOver_cons, count_add, hlhs]
      cases key.1 == lhs with
      | true => simp only [if_true, Option.map_some, Option.getD_some]; omega
      | false => simp only [Bool.false_eq_true, if_false]; omega
    · rw [sumOver_cons, sumOver_cons, ih]
      omega

/-- The total of a left-hand side is the sum over the entries. -/
theorem totalOf_eq_sumOver (g : Grammar κ) (lhs : String) :
    g.totalOf lhs = sumOver lhs g.counts.entries := by
  -- The totals so far and the sum over the entries that follow make up the sum over all of them.
  have hfold : ∀ (entries : List (RuleKey × Tally κ)) (totals : OrderedMap String Nat),
      ((entries.foldl (fun totals entry => totals.alter entry.1.1 fun present =>
        present.getD 0 + entry.2.count) totals).find? lhs).getD 0 =
          (totals.find? lhs).getD 0 + sumOver lhs entries := by
    intro entries
    induction entries with
    | nil => exact fun totals => rfl
    | cons entry rest ih =>
      intro totals
      rw [List.foldl_cons, ih, sumOver_cons]
      by_cases hlhs : lhs = entry.1.1
      · subst hlhs
        rw [OrderedMap.find?_alter_self, beq_self_eq_true, if_pos rfl, Option.getD_some]
        omega
      · rw [OrderedMap.find?_alter_of_ne _ hlhs, beq_false_of_ne (Ne.symm hlhs),
          if_neg Bool.false_ne_true]
        omega
  have hempty : ((OrderedMap.empty : OrderedMap String Nat).find? lhs).getD 0 = 0 := rfl
  rw [totalOf, totals, hfold, hempty, Nat.zero_add]

/-- The total of a left-hand side is the number of its occurrences. -/
theorem totalOf_countAll (rules : List (Rule κ)) (lhs : String) :
    ((empty : Grammar κ).countAll rules).totalOf lhs = rules.countP (·.lhs.text == lhs) := by
  rw [totalOf_eq_sumOver]
  induction rules using List.reverseRecOn with
  | nil => rfl
  | append_singleton rules rule ih =>
    rw [counts_countAll_append_singleton, OrderedMap.alter, sumOver_alterEntries, ih,
      List.countP_append, List.countP_singleton]

/-! ## Prices -/

/-- A counted rule is priced by the two numbers of its share. -/
theorem cost_of_mem_priced [Cost κ] {rules : List (Rule κ)} {s : Rule κ}
    (h : s ∈ ((empty : Grammar κ).countAll rules).priced) :
    s.cost = Cost.ofShare ((empty.countAll rules).countOf s.key)
      ((empty.countAll rules).totalOf s.lhs.text) := by
  obtain ⟨⟨key, tally⟩, hentry, rfl⟩ := List.mem_map.1 h
  obtain rfl := key_of_mem_counts hentry
  have hcount : (empty.countAll rules).countOf tally.rule.key = tally.count := by
    rw [countOf, (OrderedMap.mem_entries_iff (nodup_keys_countAll rules)).1 hentry,
      Option.map_some, Option.getD_some]
  show Cost.ofShare tally.count _ = Cost.ofShare (countOf _ tally.rule.key) _
  rw [hcount]
  rfl

end Constituency.Grammar
