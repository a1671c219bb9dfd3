import Constituency.Decimal.Numeral
import Constituency.Decimal.Positional
import Constituency.Grammar.Basic
import Constituency.Text.Lines

/-!
# Grammars as text

The rules of a grammar are written one a line: the cost, a tab, the left-hand side, a tab, the
right-hand side. The lexicon is written one word a line: the word, a tab, and each of its parts of
speech with its cost, every item with a space after it. The smoothing list is the last line of the
lexicon, under a reserved word; a word of the lexicon that is equal to it is left out.

When a text is read, blank lines are skipped, and the first line that does not have the right form
is reported by its number, the rules first.
-/

namespace Constituency.Grammar

/-- A rule as a line. -/
def ruleLine (rule : Rule Float) : String :=
  Decimal.text rule.cost ++ "\t" ++ rule.lhs.text ++ "\t" ++ rule.rhs.text

/-- The lines of the syntactic rules. -/
def ruleLines (g : Grammar Float) : List String := g.syntactic.map ruleLine

/-- A word and its rules as a line. -/
def wordLine (word : String) (rules : List (Rule Float)) : String :=
  word ++ "\t" ++
    String.join (rules.map fun rule => rule.lhs.text ++ " " ++ Decimal.text rule.cost ++ " ")

/-- The words of the lexicon that are left out when it is written. -/
def omittedWords (g : Grammar Float) : List String := g.lexicon.keys.filter (· == unknownWord)

/-- The wording that reports a word that is left out. -/
def omittedMessage : String := "palavra com a chave reservada omitida do léxico"

/-- The lines of the lexicon and the smoothing list. -/
def lexiconLines (g : Grammar Float) : List String :=
  let entries := g.lexicon.entries.filter fun entry => entry.1 != unknownWord
  entries.map (fun (word, rules) => wordLine word rules) ++
    if g.smoothing.isEmpty then [] else [wordLine unknownWord g.smoothingRules]

/-- What is wrong with a line. -/
inductive LineFault where
  /-- A line of rules has not three fields. -/
  | ruleFields
  /-- A cost cannot be read. -/
  | cost (text : String) (error : Decimal.NumeralError)
  /-- A rule has not one symbol on the left and one or two on the right. -/
  | arity
  /-- A line of the lexicon has no tab. -/
  | wordFields
  /-- A part of speech has no cost, or there is none at all. -/
  | pairs
  deriving DecidableEq

/-- The wording of a fault. -/
def LineFault.message : LineFault → String
  | .ruleFields => "esperado custo<TAB>lhs<TAB>rhs"
  | .cost text error => s!"custo inválido '{text}': {error.message}"
  | .arity => "regra precisa de um lhs e de 1 ou 2 símbolos no rhs"
  | .wordFields => "esperado palavra<TAB>(POS custo)+"
  | .pairs => "pares POS/custo incompletos"

/-- A line that does not have the right form. -/
structure MalformedLine where
  /-- The number of the line, the first one being one. -/
  line : Nat
  /-- What is wrong with it. -/
  fault : LineFault
  deriving DecidableEq

/-- The wording of the error. -/
def MalformedLine.message (error : MalformedLine) : String :=
  s!"linha {error.line} mal formada: {error.fault.message}"

/-- Reads a cost, which may have blanks around it. -/
def readCost (text : String) : Except LineFault Float :=
  (Decimal.read (Text.trim text)).mapError (.cost text)

/-- Reads a line of rules. -/
def readRuleLine (line : String) : Except LineFault (Rule Float) :=
  match Text.fields line with
  | [cost, lhs, rhs] => do
    let cost ← readCost cost
    let rule := Rule.plain (.ofText lhs) (.ofText rhs) cost
    if rule.lhs.size = 1 && (rule.isUnary || rule.isBinary) then return rule
    else throw .arity
  | _ => throw .ruleFields

/-- Reads parts of speech, each with its cost. -/
def readPairs : List String → Except LineFault (List (TagCost Float))
  | [] => .ok []
  | [_] => .error .pairs
  | tag :: cost :: rest => do
    let cost ← readCost cost
    let entries ← readPairs rest
    return ⟨tag, cost⟩ :: entries

/-- Reads a line of the lexicon: the word and its parts of speech. -/
def readWordLine (line : String) : Except LineFault (String × List (TagCost Float)) :=
  match Text.cutAtTab line with
  | none => throw .wordFields
  | some (word, entries) =>
    let items := Text.words entries
    if items.isEmpty || items.length % 2 != 0 then throw .pairs
    else do
      let entries ← readPairs items
      return (word, entries)

/-- Reads the lines that are not blank, numbered from `number` on, up to the first fault. -/
def readLines {α : Type} (read : String → Except LineFault α) (number : Nat) :
    List String → Except MalformedLine (List α)
  | [] => .ok []
  | line :: rest =>
    if Text.isBlankText line then readLines read (number + 1) rest
    else
      match read line with
      | .error fault => .error ⟨number, fault⟩
      | .ok value => (readLines read (number + 1) rest).map (value :: ·)

/-- Adds the parts of speech of a word; those of the reserved word go to the smoothing list. -/
def insertWord (g : Grammar Float) (entry : String × List (TagCost Float)) : Grammar Float :=
  if entry.1 == unknownWord then entry.2.foldl insertSmoothing g
  else entry.2.foldl (fun g tagCost => g.insertLexical entry.1 tagCost) g

/-- Reads a grammar from the text of its rules and the text of its lexicon. -/
def ofText (rules lexicon : String) : Except MalformedLine (Grammar Float) := do
  let syntactic ← readLines readRuleLine 1 (Text.lines rules)
  let words ← readLines readWordLine 1 (Text.lines lexicon)
  return words.foldl insertWord { (empty : Grammar Float) with syntactic }

end Constituency.Grammar
