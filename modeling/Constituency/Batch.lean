import Constituency.Config.Basic
import Constituency.Decoding
import Constituency.Tree.Splice

/-!
# Parsing batches of sentences

Every sentence of a batch gets a tree below the top symbol: that of its best derivation, from which
the introduced symbols have been removed, or the flat tree if it has none. The outcomes stand in the
order of the sentences, and none depends on the others.

How many sentences are parsed at a time and how long it takes makes no difference to the outcomes.
Neither is computed here, nor are the messages that tell how far a batch has got: a run is given
both numbers when it writes its report.
-/

namespace Constituency

variable {κ : Type} [Cost κ]

/-- The outcome of parsing a sentence. There is a cost or the mark of a flat tree, never both and
never neither, so which of them there is makes two cases. -/
inductive Outcome (κ : Type) where
  /-- The tree of the best derivation, and its cost. -/
  | parsed (tree : Tree) (cost : κ)
  /-- The flat tree of a sentence without a derivation. -/
  | fallback (tree : Tree)
  deriving DecidableEq

namespace Outcome

omit [Cost κ]

/-- The tree of an outcome. -/
def tree : Outcome κ → Tree
  | parsed tree _ => tree
  | fallback tree => tree

/-- The cost of the derivation, if there is one. -/
def cost? : Outcome κ → Option κ
  | parsed _ cost => some cost
  | fallback _ => none

/-- Whether the tree is the flat one. -/
def isFallback : Outcome κ → Bool
  | parsed _ _ => false
  | fallback _ => true

end Outcome

/-- The figures of a batch, without the number of threads and the time spent. -/
structure BatchSummary where
  /-- The number of sentences. -/
  sentences : Nat
  /-- The number of sentences with a derivation. -/
  parsed : Nat
  /-- The number of sentences without one. -/
  fallbacks : Nat
  deriving DecidableEq

/-- The figures of a list of outcomes. -/
def BatchSummary.ofOutcomes (outcomes : List (Outcome κ)) : BatchSummary :=
  let fallbacks := outcomes.countP Outcome.isFallback
  ⟨outcomes.length, outcomes.length - fallbacks, fallbacks⟩

/-- Why a grammar and a configuration make no parser. -/
inductive BatchError where
  /-- The configuration is refused. -/
  | config (error : ConfigError)
  /-- The grammar cannot tag unknown words. -/
  | emptySmoothing
  deriving DecidableEq

/-- The wording of an error. -/
def BatchError.message : BatchError → String
  | .config error => error.message
  | .emptySmoothing => EmptySmoothing.message

/-- A parser of batches. -/
structure BatchParser (κ : Type) where
  /-- The decoder. -/
  decoder : Decoder κ
  /-- The part of speech in flat trees. -/
  baselineTag : String

namespace BatchParser

/-- Makes a parser of a grammar and a configuration. -/
def ofGrammar (grammar : Grammar κ) (config : Config κ) : Except BatchError (BatchParser κ) := do
  config.validate.mapError .config
  let decoder ←
    (Decoder.ofGrammar grammar config.unknown config.startSymbol config.topSymbol).mapError
      fun _ => .emptySmoothing
  return ⟨decoder, config.baselineTag⟩

/-- Parses a sentence. -/
def parse (parser : BatchParser κ) (words : List String) : Except UnnamedRule (Outcome κ) :=
  match parser.decoder.decode words with
  | .ok derivation => .ok (.parsed derivation.tree.debinarize derivation.cost)
  | .error (.noParse _ _) =>
    .ok (.fallback (.baseline words parser.baselineTag parser.decoder.top))
  | .error (.unnamedRule rule) => .error rule

/-- Parses the sentences of a batch. The outcomes are collected in the order of the sentences. -/
def parseAll (parser : BatchParser κ) (sentences : List (List String)) :
    Except UnnamedRule (List (Outcome κ) × BatchSummary) := do
  let outcomes ← sentences.mapM parser.parse
  return (outcomes, .ofOutcomes outcomes)

end BatchParser

end Constituency
