import Constituency.Batch
import Constituency.CommandLine.Arguments
import Constituency.Config.Json
import Constituency.Grammar.Text
import Constituency.Json.Quoted
import Constituency.Training
import Constituency.Tree.Printer
import Constituency.Treebank

/-!
# A run of the program

A run trains a grammar on one treebank, parses the sentences of another one and writes three files:
the trees, one a line, the rules and the lexicon. It is a function of the arguments and of the files
that it can read. The first thing that goes wrong ends the run, before any file is written.
-/

namespace Constituency.CommandLine

/-- Why a run fails. -/
inductive RunError where
  /-- A treebank cannot be read, or is no text. -/
  | unreadable (path : String)
  /-- A configuration cannot be read, or is none. -/
  | unreadableConfig (path : String)
  /-- The order of Markovization given as an option does not exist. -/
  | order (error : Markovization.InvalidOrder)
  /-- The grammar and the configuration make no parser. -/
  | parser (error : BatchError)
  /-- A rule without a symbol on the left had to be used. -/
  | unnamedRule (rule : UnnamedRule)
  deriving DecidableEq

/-- The wording of an error. -/
def RunError.message : RunError → String
  | .unreadable path => s!"lendo {path}"
  | .unreadableConfig path => s!"lendo configuração {path}"
  | .order error => error.message
  | .parser error => error.message
  | .unnamedRule rule => (DecodeError.unnamedRule rule).message

/-- What a run reports. -/
structure Report where
  /-- The figures of the training. -/
  training : Training.Stats
  /-- The figures of the batch. -/
  decoding : BatchSummary
  /-- The number of threads, if it is configured. -/
  threads : Option Nat

/-- What a run comes to. -/
structure Success where
  /-- The names and the texts of the files to write, in order. -/
  files : List (String × String)
  /-- The report. -/
  report : Report

/-- The text of a file, if it can be read and is text. -/
def textOf (files : String → Option ByteArray) (path : String) : Option String :=
  (files path).bind String.fromUTF8?

/-- The configuration that the arguments ask for: options take precedence over the file. -/
def configure (files : String → Option ByteArray) (arguments : Arguments) :
    Except RunError (Config Float) := do
  let config ←
    match arguments.config with
    | none => pure Config.default
    | some path =>
      match (textOf files path).map Config.ofJsonText with
      | some (.ok config) => pure config
      | _ => throw (.unreadableConfig path)
  let config ←
    match arguments.markovization with
    | none => pure config
    | some h => do
      let order ← (Markovization.ofInt h).mapError .order
      pure { config with markovization := order }
  let config :=
    if arguments.threads.isSome then { config with threads := arguments.threads } else config
  config.validate.mapError fun error => .parser (.config error)
  return config

/-- Reads a treebank. -/
def readTreebank (files : String → Option ByteArray) (path : String) : Except RunError Treebank :=
  match textOf files path with
  | some text => .ok (Treebank.read text)
  | none => .error (.unreadable path)

/-- Runs the program. -/
def run (files : String → Option ByteArray) (arguments : Arguments) : Except RunError Success := do
  let config ← configure files arguments
  let gold ← readTreebank files arguments.gold
  let training ← readTreebank files arguments.training
  let trained := train (κ := Float) config.markovization training.trees
  let parser ← (BatchParser.ofGrammar trained.grammar config).mapError .parser
  let (outcomes, summary) ← (parser.parseAll gold.sentences).mapError .unnamedRule
  let parsed := outcomes.map fun outcome => outcome.tree.text
  return {
    files :=
      [(arguments.experiment ++ ".parsed", Text.unlines parsed),
        (arguments.experiment ++ ".gram", Text.unlines trained.grammar.ruleLines),
        (arguments.experiment ++ ".lex", Text.unlines trained.grammar.lexiconLines)]
    report := ⟨trained.stats, summary, config.threads⟩ }

/-- The wording of a file that cannot be written. -/
def unwritableMessage (path : String) : String := s!"criando {path}"

/-- A field of the report, on a line of its own. -/
def reportField (name : String) (value : Nat) : String :=
  "    " ++ Json.quoted name ++ ": " ++ toString value

/-- A part of the report. -/
def reportPart (name : String) (entries : List (String × Nat)) : String :=
  "  " ++ Json.quoted name ++ ": \x7b\n" ++
    ",\n".intercalate (entries.map fun (name, value) => reportField name value) ++ "\n  \x7d"

/-- The report as JSON, given the number of threads used and the time spent on parsing. -/
def Report.text (report : Report) (threads milliseconds : Nat) : String :=
  let training :=
    [("trees", report.training.trees), ("skipped", report.training.skipped),
      ("distinct_rules", report.training.distinctRules),
      ("syntactic_rules", report.training.syntacticRules),
      ("lexical_entries", report.training.lexicalEntries),
      ("binarized_productions", report.training.binarizedProductions)]
  let decoding :=
    [("sentences", report.decoding.sentences), ("parsed", report.decoding.parsed),
      ("fallbacks", report.decoding.fallbacks), ("threads", threads),
      ("elapsed_ms", milliseconds)]
  "\x7b\n" ++ reportPart "training" training ++ ",\n" ++ reportPart "decoding" decoding ++ "\n\x7d"

end Constituency.CommandLine
