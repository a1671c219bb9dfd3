import Constituency.Cost
import Constituency.Text.Blank

/-!
# Rules

A rule rewrites its left-hand side to its right-hand side. Both are sequences of symbols, and a
sequence is identified by its text, the symbols joined by single spaces: two rules are the same rule
if both of their sides have the same texts, whatever their costs and marks.
-/

namespace Constituency

/-- A side of a rule. -/
structure Side where
  /-- The symbols, in order. -/
  symbols : List String
  deriving DecidableEq

namespace Side

/-- The side of one symbol. -/
def single (symbol : String) : Side := ⟨[symbol]⟩

/-- The side whose symbols are the words of a text. -/
def ofText (text : String) : Side := ⟨Text.words text⟩

/-- The symbols joined by single spaces, which identifies the side. -/
def text (side : Side) : String := Text.unwords side.symbols

/-- The number of symbols. -/
def size (side : Side) : Nat := side.symbols.length

/-- Two sides are the same if their texts are. -/
def same (a b : Side) : Bool := a.text == b.text

end Side

/-- What identifies a rule: the texts of its two sides. -/
abbrev RuleKey := String × String

/-- A rule with its cost and its marks. -/
structure Rule (κ : Type) where
  /-- The left-hand side. -/
  lhs : Side
  /-- The right-hand side. -/
  rhs : Side
  /-- The cost of applying the rule. -/
  cost : κ
  /-- The rule rewrites a part of speech to a word. -/
  lexical : Bool
  /-- The rule was found at the root of a tree. -/
  top : Bool
  deriving DecidableEq

/-- A rule that cannot be used because it has no symbol on the left. -/
structure UnnamedRule where
  /-- What the rule has on the right. -/
  rhs : Side
  deriving DecidableEq

namespace Rule

variable {κ : Type}

/-- An unmarked rule between two sides. -/
def plain (lhs rhs : Side) (cost : κ) : Rule κ := ⟨lhs, rhs, cost, false, false⟩

/-- The rule by which a part of speech stands over a word. -/
def ofWord (tag word : String) (cost : κ) : Rule κ :=
  ⟨Side.single tag, Side.single word, cost, true, false⟩

/-- The texts of both sides. -/
def key (rule : Rule κ) : RuleKey := (rule.lhs.text, rule.rhs.text)

/-- Two rules are the same if both of their sides are. -/
def same (a b : Rule κ) : Bool := a.key == b.key

/-- The symbol that the rule rewrites: the first one on the left, if there is one. -/
def label? (rule : Rule κ) : Option String := rule.lhs.symbols.head?

/-- The symbol that the rule rewrites, where there has to be one. -/
def label (rule : Rule κ) : Except UnnamedRule String :=
  match rule.label? with
  | some label => .ok label
  | none => .error ⟨rule.rhs⟩

/-- Whether the rule has one symbol on the right. -/
def isUnary (rule : Rule κ) : Bool := rule.rhs.size == 1

/-- Whether the rule has two symbols on the right. -/
def isBinary (rule : Rule κ) : Bool := rule.rhs.size == 2

/-- The text of a rule. -/
def text (rule : Rule κ) : String := rule.lhs.text ++ " -> " ++ rule.rhs.text

/-- The probability that a cost stands for. -/
def probability (rule : Rule Float) : Float := (-rule.cost).exp

end Rule

end Constituency
