import Constituency.OrderedMap
import Constituency.Rule

/-!
# Probabilistic grammars

A grammar holds the counts of rules and what is estimated from them: the syntactic rules with their
costs, the lexicon, which gives each word its rules, and the smoothing list, which gives the parts
of speech of unknown words their costs.

Estimation is by relative frequency: a rule costs its share of all occurrences of its left-hand
side. The smoothing list counts each lexical rule once, however often it occurred, so that the share
of a part of speech is that of the distinct words seen under it.

A lexical rule without a symbol on the left has no part of speech to be counted under, so estimation
fails on such a rule (`tryEstimate`, `tryRebuildSmoothing`). What it comes to otherwise is a
function of its own (`estimate`, `rebuildSmoothing`), as training never meets such a rule.
-/

namespace Constituency

variable {κ : Type}

/-- The word that stands for every unknown word. -/
def unknownWord : String := "UNKNOWN"

/-- A part of speech and what it costs. -/
structure TagCost (κ : Type) where
  /-- The part of speech. -/
  tag : String
  /-- Its cost. -/
  cost : κ
  deriving DecidableEq

/-- The lexical rule from the part of speech to a word. -/
def TagCost.rule (word : String) (entry : TagCost κ) : Rule κ := .ofWord entry.tag word entry.cost

/-- A rule and how often it occurred. -/
structure Tally (κ : Type) where
  /-- The rule as it first occurred, with every mark that one of its occurrences bore. -/
  rule : Rule κ
  /-- The number of occurrences. -/
  count : Nat
  deriving DecidableEq

/-- A tally with one more occurrence. -/
def Tally.add (rule : Rule κ) : Option (Tally κ) → Tally κ
  | none => ⟨rule, 1⟩
  | some tally =>
    { rule := { tally.rule with
        lexical := tally.rule.lexical || rule.lexical
        top := tally.rule.top || rule.top }
      count := tally.count + 1 }

/-- A grammar. -/
structure Grammar (κ : Type) where
  /-- The rules that occurred, in the order of their first occurrences. -/
  counts : OrderedMap RuleKey (Tally κ)
  /-- The syntactic rules, in order. -/
  syntactic : List (Rule κ)
  /-- The lexical rules of every known word. -/
  lexicon : OrderedMap String (List (Rule κ))
  /-- The parts of speech of unknown words. -/
  smoothing : List (TagCost κ)
  deriving DecidableEq

namespace Grammar

/-- The grammar without rules. -/
def empty : Grammar κ := ⟨.empty, [], .empty, []⟩

/-- Counts one occurrence of a rule. -/
def count (g : Grammar κ) (rule : Rule κ) : Grammar κ :=
  { g with counts := g.counts.alter rule.key (Tally.add rule) }

/-- Counts the occurrences of a list of rules. -/
def countAll (g : Grammar κ) (rules : List (Rule κ)) : Grammar κ := rules.foldl count g

/-- How often each left-hand side occurred. -/
def totals (g : Grammar κ) : OrderedMap String Nat :=
  g.counts.entries.foldl
    (fun totals entry => totals.alter entry.1.1 fun present => present.getD 0 + entry.2.count)
    .empty

/-- The lexicon of a list of lexical rules: each word with its rules in order. -/
def lexiconOf (rules : List (Rule κ)) : OrderedMap String (List (Rule κ)) :=
  rules.foldl (fun lexicon rule => lexicon.append rule.rhs.text [rule]) .empty

/-- The left-hand symbols of the rules of the lexicon that have one symbol on the right. -/
def lexicalTags (lexicon : OrderedMap String (List (Rule κ))) : List String :=
  (lexicon.values.flatten.filter Rule.isUnary).filterMap Rule.label?

/-- The left-hand symbols of these rules; a rule without one makes it fail. -/
def tryLexicalTags (lexicon : OrderedMap String (List (Rule κ))) :
    Except UnnamedRule (List String) :=
  (lexicon.values.flatten.filter Rule.isUnary).mapM Rule.label

section Estimation

variable [Cost κ]

/-- The counted rules, each at the cost of its share. -/
def priced (g : Grammar κ) : List (Rule κ) :=
  let totals := g.totals
  g.counts.entries.map fun (key, tally) =>
    { tally.rule with cost := Cost.ofShare tally.count ((totals.find? key.1).getD 0) }

/-- The smoothing list of a list of parts of speech, with a repetition for each word type. -/
def smoothingOf (tags : List String) : List (TagCost κ) :=
  let counts : OrderedMap String Nat :=
    tags.foldl (fun counts tag => counts.alter tag fun present => present.getD 0 + 1) .empty
  counts.entries.map fun (tag, count) => ⟨tag, Cost.ofShare count tags.length⟩

/-- What deriving the smoothing list from the lexicon comes to if it does not fail. -/
def rebuildSmoothing (g : Grammar κ) : Grammar κ :=
  { g with smoothing := smoothingOf (lexicalTags g.lexicon) }

/-- Derives the smoothing list from the lexicon. It fails on a rule of the lexicon with one symbol
on the right and none on the left. -/
def tryRebuildSmoothing (g : Grammar κ) : Except UnnamedRule (Grammar κ) := do
  let tags ← tryLexicalTags g.lexicon
  return { g with smoothing := smoothingOf tags }

/-- Derives the syntactic rules and the lexicon from the counts. -/
def listed (g : Grammar κ) : Grammar κ :=
  let rules := g.priced
  { g with
    syntactic := rules.filter fun rule => !rule.lexical
    lexicon := lexiconOf (rules.filter Rule.lexical) }

/-- What deriving the syntactic rules, the lexicon and the smoothing list from the counts comes to
if it does not fail. -/
def estimate (g : Grammar κ) : Grammar κ := g.listed.rebuildSmoothing

/-- Derives the syntactic rules, the lexicon and the smoothing list from the counts. It fails on a
lexical rule with one symbol on the right and none on the left. -/
def tryEstimate (g : Grammar κ) : Except UnnamedRule (Grammar κ) := g.listed.tryRebuildSmoothing

end Estimation

/-- Adds a syntactic rule. -/
def insertSyntactic (g : Grammar κ) (rule : Rule κ) : Grammar κ :=
  { g with syntactic := g.syntactic ++ [rule] }

/-- Adds a part of speech of a word. -/
def insertLexical (g : Grammar κ) (word : String) (entry : TagCost κ) : Grammar κ :=
  { g with lexicon := g.lexicon.append word [entry.rule word] }

/-- Adds a part of speech of unknown words. -/
def insertSmoothing (g : Grammar κ) (entry : TagCost κ) : Grammar κ :=
  { g with smoothing := g.smoothing ++ [entry] }

/-- Whether a word is in the lexicon. -/
def knows (g : Grammar κ) (word : String) : Bool := g.lexicon.contains word

/-- The smoothing list as lexical rules of the word that stands for every unknown one. -/
def smoothingRules (g : Grammar κ) : List (Rule κ) := g.smoothing.map (TagCost.rule unknownWord)

/-- The lexical rules of a word. The word that stands for every unknown one has those of the
smoothing list, unless the lexicon itself holds the word. -/
def lexicalRules? (g : Grammar κ) (word : String) : Option (List (Rule κ)) :=
  match g.lexicon.find? word with
  | some rules => some rules
  | none => if word == unknownWord && !g.smoothing.isEmpty then some g.smoothingRules else none

end Grammar

end Constituency
