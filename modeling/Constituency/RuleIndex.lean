import Constituency.Grammar.Basic

/-!
# The rule index

The syntactic rules of a grammar are numbered from zero in the order of their first occurrences; a
rule that is the same as an earlier one gets no number of its own. For each symbol the index lists
the unary rules over it and the binary rules that have it as their first or as their second symbol.

Numbers have no bound here. Numbers of 32 bits are the same as long as there are fewer than `2^32`
distinct rules.
-/

namespace Constituency

variable {κ : Type}

/-- The numbered rules of a grammar and the lists by symbol. -/
structure RuleIndex (κ : Type) where
  /-- The rules by their numbers. -/
  rules : Array (Rule κ)
  /-- The numbers of the rules by their identities. -/
  numbers : OrderedMap RuleKey Nat
  /-- The unary rules over a symbol. -/
  unary : OrderedMap String (List Nat)
  /-- The binary rules with a certain first symbol. -/
  byFirst : OrderedMap String (List Nat)
  /-- The binary rules with a certain second symbol. -/
  bySecond : OrderedMap String (List Nat)

namespace RuleIndex

/-- The index without rules. -/
def empty : RuleIndex κ := ⟨#[], .empty, .empty, .empty, .empty⟩

/-- Gives a rule the next number, unless the same rule has one. -/
def add (index : RuleIndex κ) (rule : Rule κ) : RuleIndex κ :=
  if index.numbers.contains rule.key then index
  else
    let number := index.rules.size
    let numbered :=
      { index with
        rules := index.rules.push rule
        numbers := index.numbers.insert rule.key number }
    match rule.rhs.symbols with
    | [child] => { numbered with unary := index.unary.append child [number] }
    | [first, second] =>
      { numbered with
        byFirst := index.byFirst.append first [number]
        bySecond := index.bySecond.append second [number] }
    | _ => numbered

/-- The index of a list of rules. -/
def ofRules (rules : List (Rule κ)) : RuleIndex κ := rules.foldl add empty

/-- The index of a grammar. -/
def ofGrammar (g : Grammar κ) : RuleIndex κ := ofRules g.syntactic

/-- The number of rules. -/
def size (index : RuleIndex κ) : Nat := index.rules.size

/-- The rule with a number. -/
def rule? (index : RuleIndex κ) (number : Nat) : Option (Rule κ) := index.rules[number]?

/-- The number of a rule. -/
def number? (index : RuleIndex κ) (rule : Rule κ) : Option Nat := index.numbers.find? rule.key

/-- The numbers of the unary rules over a symbol. -/
def unaryRules (index : RuleIndex κ) (child : String) : List Nat :=
  (index.unary.find? child).getD []

/-- The numbers of the binary rules whose first symbol is the given one. -/
def firstRules (index : RuleIndex κ) (first : String) : List Nat :=
  (index.byFirst.find? first).getD []

/-- The numbers of the binary rules whose second symbol is the given one. -/
def secondRules (index : RuleIndex κ) (second : String) : List Nat :=
  (index.bySecond.find? second).getD []

/-- The number of unary rules. -/
def unaryCount (index : RuleIndex κ) : Nat := index.rules.toList.countP Rule.isUnary

/-- The rules that have no symbol on the left. -/
def unnamed (index : RuleIndex κ) : List (Rule κ) :=
  index.rules.toList.filter fun rule => rule.label?.isNone

end RuleIndex

end Constituency
