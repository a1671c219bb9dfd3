import Constituency.Grammar.Basic
import Constituency.Text.Grapheme

/-!
# Parts of speech of words

A word of the lexicon has the parts of speech of its lexical rules. For any other word the tagger
goes through five steps in order: an inflectional suffix of two letters, whose removal leaves a
known stem; a weak last letter, whose removal does; a number; the mark of a foreign word; and at
last every part of speech of unknown words, the likelier ones at a lower cost. A word with such a
suffix is not tried for a weak letter. The defaults are made for transliterated Hebrew.
-/

namespace Constituency

variable {κ : Type}

/-- The tables and parameters of the steps for unknown words. -/
structure UnknownWords (κ : Type) where
  /-- The suffixes of the plural, the possessive and the construct. -/
  suffixes : List String
  /-- The ending that makes a stem feminine. -/
  feminineMarker : String
  /-- The last letters that can be removed. -/
  weakLetters : List String
  /-- The part of speech of numbers. -/
  cardinalTag : String
  /-- A text that occurs only in foreign words; none if it is empty. -/
  foreignMarker : String
  /-- The part of speech of foreign words. -/
  properNounTag : String
  /-- The parts of speech that are always favoured. -/
  openClassTags : List String
  /-- The parts of speech that are favoured for words with the beginning of a verb. -/
  verbTags : List String
  /-- The first letters of verbs. -/
  verbPrefixes : List String
  /-- What the cost of a favoured part of speech is multiplied with. -/
  biasFactor : κ
  deriving DecidableEq

namespace UnknownWords

/-- The defaults, with a bias factor. -/
def standard (biasFactor : κ) : UnknownWords κ where
  suffixes := ["IM", "WT", "IT", "TW", "TH", "TM", "TN", "KM", "KN"]
  feminineMarker := "H"
  weakLetters := ["I", "H", "W"]
  cardinalTag := "CD"
  foreignMarker := "U"
  properNounTag := "NNP"
  openClassTags := ["NN", "NNP", "NNT", "JJ"]
  verbTags := ["VB"]
  verbPrefixes := ["A", "I", "T", "N", "M"]
  biasFactor

end UnknownWords

/-- The step that a part of speech comes from. -/
inductive TagSource where
  | lexicon
  | suffix
  | weakLetter
  | cardinal
  | foreign
  | smoothing
  deriving DecidableEq

/-- A possible part of speech of a word. -/
structure Candidate (κ : Type) where
  /-- The part of speech. -/
  tag : String
  /-- Its cost. -/
  cost : κ
  /-- The step that it comes from. -/
  source : TagSource
  deriving DecidableEq

/-- Whether the characters of a text occur in another one after each other. -/
def occursIn (part : List Char) : List Char → Bool
  | [] => part.isEmpty
  | c :: rest => part.isPrefixOf (c :: rest) || occursIn part rest

/-- A number is written with the ten digits of ASCII alone, at least one of them. -/
def isCardinal (word : String) : Bool := !word.isEmpty && word.toList.all Char.isDigit

namespace Candidate

/-- The candidate that a lexical rule gives. -/
def ofRule (source : TagSource) (rule : Rule κ) : Except UnnamedRule (Candidate κ) :=
  rule.label.map fun tag => ⟨tag, rule.cost, source⟩

end Candidate

namespace Grammar

/-- The first of several words that the lexicon holds, as its rules. -/
def firstKnown? (g : Grammar κ) (words : List String) : Option (List (Rule κ)) :=
  words.findSome? g.lexicon.find?

/-- The rules of the stem of a word with an inflectional suffix or a weak last letter. -/
def morphology? (g : Grammar κ) (unknown : UnknownWords κ) (word : String) :
    Option (TagSource × List (Rule κ)) :=
  let letters := Text.Grapheme.clusters word
  let size := letters.length
  let stem := String.join (letters.take (size - 2))
  if 2 < size && unknown.suffixes.contains (String.join (letters.drop (size - 2))) then
    (g.firstKnown? [stem, stem ++ unknown.feminineMarker]).map (.suffix, ·)
  else if 1 < size && unknown.weakLetters.contains (String.join (letters.drop (size - 1))) then
    (g.lexicon.find? (String.join (letters.take (size - 1)))).map (.weakLetter, ·)
  else none

/-- Whether a part of speech is favoured for a word that is unknown in every respect. -/
def favours (unknown : UnknownWords κ) (word tag : String) : Bool :=
  let first := (Text.Grapheme.clusters word).head?.getD ""
  unknown.openClassTags.contains tag ||
    (unknown.verbPrefixes.contains first && unknown.verbTags.contains tag)

section Costs

variable [Cost κ]

/-- Every part of speech of unknown words, the favoured ones at the cost multiplied with the bias
factor. -/
def smoothed (g : Grammar κ) (unknown : UnknownWords κ) (word : String) : List (Candidate κ) :=
  g.smoothing.map fun entry =>
    let cost :=
      if favours unknown word entry.tag then entry.cost * unknown.biasFactor else entry.cost
    ⟨entry.tag, cost, .smoothing⟩

/-- The parts of speech of a word that is not in the lexicon. -/
def tagUnknown (g : Grammar κ) (unknown : UnknownWords κ) (word : String) :
    Except UnnamedRule (List (Candidate κ)) :=
  match g.morphology? unknown word with
  | some (source, rules) => rules.mapM (Candidate.ofRule source)
  | none =>
    if isCardinal word then .ok [⟨unknown.cardinalTag, 0, .cardinal⟩]
    else if !unknown.foreignMarker.isEmpty &&
        occursIn unknown.foreignMarker.toList word.toList then
      .ok [⟨unknown.properNounTag, 0, .foreign⟩]
    else .ok (g.smoothed unknown word)

/-- The parts of speech of a word. -/
def tag (g : Grammar κ) (unknown : UnknownWords κ) (word : String) :
    Except UnnamedRule (List (Candidate κ)) :=
  match g.lexicon.find? word with
  | some rules => rules.mapM (Candidate.ofRule .lexicon)
  | none => g.tagUnknown unknown word

end Costs

end Grammar

end Constituency
