import Constituency.Proofs.RuleIndex

/-!
# The numbering of rules

A rule index and the list of rules that it is made of tell the same. The numbered rules are the
distinct ones, in the order of their first occurrences (`toList_rules_ofRules`): the index looks for
a rule among the identities that it knows, and these are those of the rules with numbers
(`Numbered`). So a number leads to a rule, the rule to its number, and the lists of a symbol hold
the numbers of the rules in which it stands where it should (`Inverts`).
-/

namespace Constituency

variable {κ : Type}

/-- Rules are the same exactly if they have the same identity. -/
theorem Rule.same_iff {rule other : Rule κ} : rule.same other = true ↔ rule.key = other.key :=
  beq_iff_eq

namespace RuleIndex

variable {index : RuleIndex κ} {rule : Rule κ}

/-- A rule that is the same as a numbered one changes nothing when it is added, and any other gets
the next number. -/
theorem add_cases (index : RuleIndex κ) (rule : Rule κ) :
    (index.numbers.contains rule.key = true ∧ index.add rule = index) ∨
      (index.numbers.contains rule.key = false ∧
        (index.add rule).rules = index.rules.push rule ∧
        (index.add rule).numbers = index.numbers.insert rule.key index.size) := by
  unfold add
  cases hk : index.numbers.contains rule.key with
  | true => exact Or.inl ⟨rfl, if_pos rfl⟩
  | false =>
    rw [if_neg Bool.false_ne_true]
    dsimp only
    split <;> exact Or.inr ⟨rfl, rfl, rfl⟩

/-- The rules with numbers once one more rule has the next number. -/
theorem rule?_of_push {next : RuleIndex κ} (h : next.rules = index.rules.push rule)
    (number : Nat) :
    next.rule? number = if number = index.size then some rule else index.rule? number := by
  rw [rule?, h, Array.getElem?_push]
  rfl

/-- A number that has a rule is less than the next one. -/
theorem lt_size_of_rule? {number : Nat} (h : index.rule? number = some rule) :
    number < index.size := (Array.getElem?_eq_some_iff.1 h).1

/-! ## From identities to numbers -/

/-- The identities of an index lead to the numbers of the rules that have them. -/
def Numbered (index : RuleIndex κ) : Prop :=
  ∀ key number, index.numbers.find? key = some number ↔
    ∃ rule, index.rule? number = some rule ∧ rule.key = key

/-- In the index without rules there is nothing to find. -/
theorem numbered_empty : (empty : RuleIndex κ).Numbered := by
  intro key number
  constructor
  · exact nofun
  · rintro ⟨rule, hr, -⟩
    exact absurd (lt_size_of_rule? hr) (Nat.not_lt_zero number)

/-- Adding a rule keeps the numbers of identities. -/
theorem Numbered.add (h : index.Numbered) (hi : index.Agrees) (rule : Rule κ) :
    (index.add rule).Numbered := by
  obtain ⟨-, hsame⟩ | ⟨hnew, hrules, hnumbers⟩ := add_cases index rule
  · rw [hsame]
    exact h
  intro key number
  rw [rule?_of_push hrules, hnumbers]
  by_cases hk : key = rule.key
  · -- No rule had the identity before, so the number is that of the rule that is added.
    subst hk
    rw [OrderedMap.find?_insert_self, Option.some.injEq]
    have hnone : ∀ r, index.rule? number = some r → r.key ≠ rule.key := by
      intro r hr hkey
      have hknown := (hi.known _).2 ⟨r, mem_rules_of_rule? hr, hkey⟩
      exact Bool.false_ne_true (hnew.symm.trans hknown)
    constructor
    · rintro rfl
      exact ⟨rule, if_pos rfl, rfl⟩
    · rintro ⟨r, hr, hkey⟩
      by_contra hne
      rw [if_neg (Ne.symm hne)] at hr
      exact hnone r hr hkey
  · rw [OrderedMap.find?_insert_of_ne _ hk, h key number]
    constructor
    · rintro ⟨r, hr, hkey⟩
      exact ⟨r, by rw [if_neg (Nat.ne_of_lt (lt_size_of_rule? hr)), hr], hkey⟩
    · rintro ⟨r, hr, hkey⟩
      split at hr
      · obtain rfl := Option.some.inj hr
        exact absurd hkey.symm hk
      · exact ⟨r, hr, hkey⟩

/-- The identities of an index that is made of rules lead to their numbers. -/
theorem numbered_ofRules (rules : List (Rule κ)) : (ofRules rules).Numbered := by
  induction rules using List.reverseRecOn with
  | nil => exact numbered_empty
  | append_singleton rules rule ih =>
    rw [ofRules, List.foldl_append]
    exact ih.add (ofRules_spec rules).1 rule

/-! ## The order of numbers -/

/-- Adding rules goes on as erasing duplicates does: what has been kept comes first. -/
theorem Agrees.toList_rules_foldl_add (h : index.Agrees) (rules : List (Rule κ)) :
    (rules.foldl RuleIndex.add index).rules.toList =
      List.eraseDupsBy.loop Rule.same rules index.rules.toList.reverse := by
  induction rules generalizing index with
  | nil => rw [List.foldl_nil, List.eraseDupsBy.loop, List.reverse_reverse]
  | cons rule rest ih =>
    -- The index knows a rule exactly if one like it has been kept.
    have hlisted : index.rules.toList.reverse.any rule.same = index.numbers.contains rule.key := by
      rw [Bool.eq_iff_iff, List.any_eq_true, h.known]
      simp only [List.mem_reverse, Array.mem_toList_iff, Rule.same_iff]
      exact exists_congr fun r => and_congr_right fun _ => eq_comm
    rw [List.foldl_cons, ih (h.add rule), List.eraseDupsBy.loop, hlisted]
    obtain ⟨hk, hsame⟩ | ⟨hk, hrules, -⟩ := add_cases index rule
    · rw [hk, hsame]
    · rw [hk, hrules, Array.toList_push, List.reverse_append]
      rfl

/-- The numbered rules are the distinct ones, in the order of their first occurrences. -/
theorem toList_rules_ofRules (rules : List (Rule κ)) :
    (ofRules rules).rules.toList = rules.eraseDupsBy Rule.same :=
  agrees_empty.toList_rules_foldl_add rules

/-- The numbers of the rules that a test accepts stand in order. -/
theorem pairwise_numbersOf (index : RuleIndex κ) (test : Rule κ → Bool) :
    (index.numbersOf test).Pairwise (· < ·) := List.pairwise_lt_range.filter _

/-! ## Back and forth -/

/-- A list holds the numbers of the rules with a property, each once and from the least to the
greatest. -/
structure Lists (index : RuleIndex κ) (numbers : List Nat) (property : Rule κ → Prop) : Prop where
  /-- The numbers increase. -/
  increasing : numbers.Pairwise (· < ·)
  /-- They are those of the rules with the property. -/
  mem_iff : ∀ number, number ∈ numbers ↔ ∃ rule, index.rule? number = some rule ∧ property rule

/-- The numbers of the rules that a test accepts, if the test decides the property. -/
theorem lists_numbersOf (index : RuleIndex κ) {test : Rule κ → Bool} {property : Rule κ → Prop}
    (h : ∀ {rule}, test rule = true ↔ property rule) :
    index.Lists (index.numbersOf test) property where
  increasing := pairwise_numbersOf index test
  mem_iff number := by simp only [mem_numbersOf, h]

/-- An index and a list of rules tell the same. -/
structure Inverts (index : RuleIndex κ) (rules : List (Rule κ)) : Prop where
  /-- The rule with a number is the distinct rule at this place, as it first occurs. -/
  rule : ∀ number, index.rule? number = (rules.eraseDupsBy Rule.same)[number]?
  /-- There are as many numbers as distinct rules. -/
  size : index.size = (rules.eraseDupsBy Rule.same).length
  /-- The rule with a number has this number. -/
  number : ∀ {number rule}, index.rule? number = some rule → index.number? rule = some number
  /-- A rule has a number if one that is the same occurs among the rules, and only then. -/
  occurs : ∀ rule, (index.number? rule).isSome = true ↔ ∃ r ∈ rules, r.same rule = true
  /-- The unary rules over a symbol. -/
  unary : ∀ symbol,
    index.Lists (index.unaryRules symbol) fun rule => rule.rhs.symbols = [symbol]
  /-- The binary rules with a certain first symbol. -/
  first : ∀ symbol,
    index.Lists (index.firstRules symbol) fun rule => ∃ x, rule.rhs.symbols = [symbol, x]
  /-- The binary rules with a certain second symbol. -/
  second : ∀ symbol,
    index.Lists (index.secondRules symbol) fun rule => ∃ x, rule.rhs.symbols = [x, symbol]

/-- The index of a grammar and its syntactic rules tell the same, whatever rules occur again at
other costs and however many symbols there are on the right. -/
theorem inverts_ofGrammar (g : Grammar κ) : (ofGrammar g).Inverts g.syntactic := by
  have hagrees := agrees_ofGrammar g
  have hnumbered : (ofGrammar g).Numbered := numbered_ofRules g.syntactic
  have hrules : (ofGrammar g).rules.toList = g.syntactic.eraseDupsBy Rule.same :=
    toList_rules_ofRules g.syntactic
  refine ⟨fun number => ?_, ?_, fun {number rule} hr => ?_, fun rule => ?_, fun symbol => ?_,
    fun symbol => ?_, fun symbol => ?_⟩
  · rw [← hrules, Array.getElem?_toList]
    rfl
  · rw [← hrules, Array.length_toList]
    rfl
  · exact (hnumbered rule.key number).2 ⟨rule, hr, rfl⟩
  · show (ofGrammar g).numbers.contains rule.key = true ↔ _
    rw [hagrees.known]
    simp only [Rule.same_iff]
    constructor
    · rintro ⟨r, hr, hkey⟩
      exact ⟨r, mem_syntactic_of_mem_rules hr, hkey⟩
    · rintro ⟨r, hr, hkey⟩
      obtain ⟨r', hr', hsame⟩ := exists_mem_rules_of_mem_syntactic hr
      exact ⟨r', hr', hsame.trans hkey⟩
  · rw [hagrees.unary]
    exact lists_numbersOf _ Rule.isOver_iff
  · rw [hagrees.first]
    exact lists_numbersOf _ Rule.hasFirst_iff
  · rw [hagrees.second]
    exact lists_numbersOf _ Rule.hasSecond_iff

end RuleIndex

end Constituency
