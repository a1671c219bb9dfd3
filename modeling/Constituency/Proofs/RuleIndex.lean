import Constituency.Proofs.OrderedMap
import Constituency.RuleIndex
import Mathlib.Data.List.Induction

/-!
# What the rule index lists

The lists of a symbol are what a search through the numbered rules would find (`Agrees`): the
numbers, from the least to the greatest, of the unary rules over the symbol and of the binary rules
that have it as their first or second symbol. Every rule of the grammar is the same as a numbered
one, and every numbered one is a rule of the grammar.
-/

namespace Constituency

variable {κ : Type}

namespace Rule

/-- Whether a rule has a certain symbol on the right and nothing else. -/
def isOver (symbol : String) (rule : Rule κ) : Bool := rule.rhs.symbols == [symbol]

/-- Whether a rule has two symbols on the right, of which the first is a certain one. -/
def hasFirst (symbol : String) (rule : Rule κ) : Bool :=
  match rule.rhs.symbols with
  | [first, _] => first == symbol
  | _ => false

/-- Whether a rule has two symbols on the right, of which the second is a certain one. -/
def hasSecond (symbol : String) (rule : Rule κ) : Bool :=
  match rule.rhs.symbols with
  | [_, second] => second == symbol
  | _ => false

/-- The right-hand side of a unary rule over a symbol. -/
theorem isOver_iff {symbol : String} {rule : Rule κ} :
    rule.isOver symbol = true ↔ rule.rhs.symbols = [symbol] := beq_iff_eq

/-- The right-hand side of a binary rule with a certain first symbol. -/
theorem hasFirst_iff {symbol : String} {rule : Rule κ} :
    rule.hasFirst symbol = true ↔ ∃ second, rule.rhs.symbols = [symbol, second] := by
  unfold hasFirst
  split
  · rename_i first second h
    simp [h]
  · rename_i h
    constructor
    · intro hf
      exact absurd hf Bool.false_ne_true
    · rintro ⟨second, hs⟩
      exact absurd hs (h symbol second)

/-- The right-hand side of a binary rule with a certain second symbol. -/
theorem hasSecond_iff {symbol : String} {rule : Rule κ} :
    rule.hasSecond symbol = true ↔ ∃ first, rule.rhs.symbols = [first, symbol] := by
  unfold hasSecond
  split
  · rename_i first second h
    simp [h]
  · rename_i h
    constructor
    · intro hf
      exact absurd hf Bool.false_ne_true
    · rintro ⟨first, hs⟩
      exact absurd hs (h first symbol)

/-- A rule has one first symbol. -/
theorem hasFirst_inj {symbol other : String} {rule : Rule κ} (h : rule.hasFirst symbol = true)
    (h' : rule.hasFirst other = true) : symbol = other := by
  obtain ⟨second, hs⟩ := hasFirst_iff.1 h
  obtain ⟨second', hs'⟩ := hasFirst_iff.1 h'
  exact (List.cons.inj (hs.symm.trans hs')).1

/-- A rule has one second symbol. -/
theorem hasSecond_inj {symbol other : String} {rule : Rule κ} (h : rule.hasSecond symbol = true)
    (h' : rule.hasSecond other = true) : symbol = other := by
  obtain ⟨first, hs⟩ := hasSecond_iff.1 h
  obtain ⟨first', hs'⟩ := hasSecond_iff.1 h'
  exact List.singleton_inj.1 (List.cons.inj (hs.symm.trans hs')).2

end Rule

namespace RuleIndex

/-- The numbers of the rules that a test accepts, from the least to the greatest. -/
def numbersOf (index : RuleIndex κ) (test : Rule κ → Bool) : List Nat :=
  (List.range index.size).filter fun number => (index.rule? number).any test

/-- A number is listed exactly if it is that of a rule which the test accepts. -/
theorem mem_numbersOf {index : RuleIndex κ} {test : Rule κ → Bool} {number : Nat} :
    number ∈ index.numbersOf test ↔
      ∃ rule, index.rule? number = some rule ∧ test rule = true := by
  simp only [numbersOf, List.mem_filter, List.mem_range, Option.any_eq_true]
  constructor
  · exact And.right
  · rintro ⟨rule, hr, ht⟩
    refine ⟨?_, rule, hr, ht⟩
    by_contra hn
    rw [rule?, Array.getElem?_eq_none (Nat.le_of_not_lt hn)] at hr
    exact absurd hr nofun

/-- No number is listed twice. -/
theorem nodup_numbersOf (index : RuleIndex κ) (test : Rule κ → Bool) :
    (index.numbersOf test).Nodup := List.nodup_range.filter _

/-- As many numbers are listed as there are rules that the test accepts. -/
theorem length_numbersOf (index : RuleIndex κ) (test : Rule κ → Bool) :
    (index.numbersOf test).length = index.rules.toList.countP test := by
  have hmap : (List.range index.size).map index.rule? = index.rules.toList.map some := by
    refine List.ext_getElem (by simp [size]) fun k hk _ => ?_
    rw [List.length_map, List.length_range] at hk
    simp only [List.getElem_map, List.getElem_range, rule?, Array.getElem_toList]
    exact Array.getElem?_eq_getElem hk
  calc (index.numbersOf test).length
      = ((List.range index.size).map index.rule?).countP (·.any test) := by
        rw [numbersOf, ← List.countP_eq_length_filter, List.countP_map]
        rfl
    _ = index.rules.toList.countP test := by
        rw [hmap, List.countP_map]
        rfl

/-- The rule with a number is one of the rules. -/
theorem mem_rules_of_rule? {index : RuleIndex κ} {number : Nat} {rule : Rule κ}
    (h : index.rule? number = some rule) : rule ∈ index.rules := Array.mem_of_getElem? h

/-- Every one of the rules has a number. -/
theorem exists_rule? {index : RuleIndex κ} {rule : Rule κ} (h : rule ∈ index.rules) :
    ∃ number, index.rule? number = some rule := Array.mem_iff_getElem?.1 h

/-- The index agrees with its numbered rules. -/
structure Agrees (index : RuleIndex κ) : Prop where
  /-- The list of unary rules over a symbol. -/
  unary : ∀ symbol, index.unaryRules symbol = index.numbersOf (·.isOver symbol)
  /-- The list of binary rules with a certain first symbol. -/
  first : ∀ symbol, index.firstRules symbol = index.numbersOf (·.hasFirst symbol)
  /-- The list of binary rules with a certain second symbol. -/
  second : ∀ symbol, index.secondRules symbol = index.numbersOf (·.hasSecond symbol)
  /-- The identities that are known are those of the rules. -/
  known : ∀ key, index.numbers.contains key = true ↔ ∃ rule ∈ index.rules, rule.key = key

/-- The index without rules agrees with them. -/
theorem agrees_empty : (empty : RuleIndex κ).Agrees where
  unary _ := rfl
  first _ := rfl
  second _ := rfl
  known key := by
    simp only [OrderedMap.contains_iff]
    simp [empty]

/-- The numbers of the rules that a test accepts once one more rule has the next number. -/
theorem numbersOf_push {index next : RuleIndex κ} {rule : Rule κ}
    (h : next.rules = index.rules.push rule) (test : Rule κ → Bool) :
    next.numbersOf test =
      index.numbersOf test ++ if test rule = true then [index.size] else [] := by
  have hsize : next.size = index.size + 1 := by rw [size, h, Array.size_push, size]
  have hold : ∀ number ∈ List.range index.size, next.rule? number = index.rule? number := by
    intro number hn
    have hne : number ≠ index.rules.size := Nat.ne_of_lt (List.mem_range.1 hn)
    rw [rule?, h, Array.getElem?_push, if_neg hne, rule?]
  have hnew : next.rule? index.size = some rule := by
    rw [rule?, h, size, Array.getElem?_push_size]
  rw [numbersOf, hsize, List.range_succ, List.filter_append, numbersOf]
  congr 1
  · exact List.filter_congr fun number hn => by rw [hold number hn]
  · simp only [List.filter_cons, hnew, Option.any_some, List.filter_nil]

/-- Adding a rule keeps the agreement. -/
theorem Agrees.add {index : RuleIndex κ} (h : index.Agrees) (rule : Rule κ) :
    (index.add rule).Agrees := by
  unfold RuleIndex.add
  by_cases hk : index.numbers.contains rule.key = true
  · rw [if_pos hk]
    exact h
  rw [if_neg hk]
  -- What the three shapes of a right-hand side have in common: the rule has the next number.
  have known : ∀ key, (index.numbers.insert rule.key index.rules.size).contains key = true ↔
      ∃ r ∈ index.rules.push rule, r.key = key := by
    intro key
    rw [OrderedMap.contains_iff, OrderedMap.insert, OrderedMap.mem_keys_alter,
      ← OrderedMap.contains_iff, h.known]
    constructor
    · rintro (rfl | ⟨r, hr, hkey⟩)
      · exact ⟨rule, Array.mem_push_self, rfl⟩
      · exact ⟨r, Array.mem_push_of_mem _ hr, hkey⟩
    · rintro ⟨r, hr, hkey⟩
      rcases Array.mem_push.1 hr with hr | rfl
      · exact Or.inr ⟨r, hr, hkey⟩
      · exact Or.inl hkey.symm
  dsimp only
  split
  · rename_i child hs
    refine ⟨fun symbol => ?_, fun symbol => ?_, fun symbol => ?_, known⟩
    · rw [numbersOf_push rfl, ← h.unary]
      have happend := OrderedMap.getD_find?_append index.unary child symbol [index.rules.size]
      simpa [Rule.isOver, hs, unaryRules, size] using happend
    · rw [numbersOf_push rfl, ← h.first]
      simp [Rule.hasFirst, hs, firstRules]
    · rw [numbersOf_push rfl, ← h.second]
      simp [Rule.hasSecond, hs, secondRules]
  · rename_i first second hs
    refine ⟨fun symbol => ?_, fun symbol => ?_, fun symbol => ?_, known⟩
    · rw [numbersOf_push rfl, ← h.unary]
      simp [Rule.isOver, hs, unaryRules]
    · rw [numbersOf_push rfl, ← h.first]
      have happend := OrderedMap.getD_find?_append index.byFirst first symbol [index.rules.size]
      simpa [Rule.hasFirst, hs, firstRules, size] using happend
    · rw [numbersOf_push rfl, ← h.second]
      have happend := OrderedMap.getD_find?_append index.bySecond second symbol [index.rules.size]
      simpa [Rule.hasSecond, hs, secondRules, size] using happend
  · rename_i hone htwo
    have hnone : ∀ symbol, rule.isOver symbol = false ∧ rule.hasFirst symbol = false ∧
        rule.hasSecond symbol = false := by
      intro symbol
      refine ⟨?_, ?_, ?_⟩
      · rw [Bool.eq_false_iff, ne_eq, Rule.isOver_iff]
        exact hone symbol
      · rw [Bool.eq_false_iff, ne_eq, Rule.hasFirst_iff, not_exists]
        exact htwo symbol
      · rw [Bool.eq_false_iff, ne_eq, Rule.hasSecond_iff, not_exists]
        exact fun first => htwo first symbol
    refine ⟨fun symbol => ?_, fun symbol => ?_, fun symbol => ?_, known⟩
    · rw [numbersOf_push rfl, ← h.unary]
      simp [(hnone symbol).1, unaryRules]
    · rw [numbersOf_push rfl, ← h.first]
      simp [(hnone symbol).2.1, firstRules]
    · rw [numbersOf_push rfl, ← h.second]
      simp [(hnone symbol).2.2, secondRules]

/-- The rules once one more has been added. -/
theorem mem_rules_add {index : RuleIndex κ} {rule r : Rule κ} :
    r ∈ (index.add rule).rules ↔
      r ∈ index.rules ∨ index.numbers.contains rule.key = false ∧ r = rule := by
  unfold add
  by_cases hk : index.numbers.contains rule.key = true
  · rw [if_pos hk, hk]
    simp
  · rw [if_neg hk]
    rw [Bool.not_eq_true] at hk
    dsimp only
    split <;> simp [hk, Array.mem_push]

/-- What has been shown of an index and its rules after the rules of a list have been added. -/
theorem ofRules_spec (rules : List (Rule κ)) :
    (ofRules rules).Agrees ∧ (∀ rule ∈ (ofRules rules).rules, rule ∈ rules) ∧
      ∀ rule ∈ rules, ∃ r ∈ (ofRules rules).rules, r.key = rule.key := by
  induction rules using List.reverseRecOn with
  | nil => exact ⟨agrees_empty, by simp [ofRules, empty], by simp⟩
  | append_singleton rules rule ih =>
    obtain ⟨agrees, sub, all⟩ := ih
    have hadd : ofRules (rules ++ [rule]) = (ofRules rules).add rule := by
      simp only [ofRules, List.foldl_append, List.foldl_cons, List.foldl_nil]
    rw [hadd]
    refine ⟨agrees.add rule, ?_, ?_⟩
    · intro r hr
      rcases mem_rules_add.1 hr with hr | ⟨-, rfl⟩
      · exact List.mem_append_left _ (sub r hr)
      · exact List.mem_append_right _ (List.mem_singleton.2 rfl)
    · intro r hr
      rcases List.mem_append.1 hr with hr | hr
      · obtain ⟨r', hr', hkey⟩ := all r hr
        exact ⟨r', mem_rules_add.2 (Or.inl hr'), hkey⟩
      · obtain rfl := List.mem_singleton.1 hr
        cases hk : (ofRules rules).numbers.contains r.key with
        | true =>
          obtain ⟨r', hr', hkey⟩ := (agrees.known r.key).1 hk
          exact ⟨r', mem_rules_add.2 (Or.inl hr'), hkey⟩
        | false => exact ⟨r, mem_rules_add.2 (Or.inr ⟨hk, rfl⟩), rfl⟩

/-- The index of a grammar agrees with its numbered rules. -/
theorem agrees_ofGrammar (g : Grammar κ) : (ofGrammar g).Agrees := (ofRules_spec g.syntactic).1

/-- Every numbered rule is a rule of the grammar. -/
theorem mem_syntactic_of_mem_rules {g : Grammar κ} {rule : Rule κ}
    (h : rule ∈ (ofGrammar g).rules) : rule ∈ g.syntactic := (ofRules_spec g.syntactic).2.1 rule h

/-- Every rule of the grammar is the same as a numbered one. -/
theorem exists_mem_rules_of_mem_syntactic {g : Grammar κ} {rule : Rule κ}
    (h : rule ∈ g.syntactic) : ∃ r ∈ (ofGrammar g).rules, r.key = rule.key :=
  (ofRules_spec g.syntactic).2.2 rule h

end RuleIndex

end Constituency
