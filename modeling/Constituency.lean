import Constituency.Batch
import Constituency.Binarization
import Constituency.Chart.Basic
import Constituency.Chart.Span
import Constituency.CommandLine.Arguments
import Constituency.CommandLine.Run
import Constituency.Config.Basic
import Constituency.Config.Json
import Constituency.Cost
import Constituency.Decimal.Binary
import Constituency.Decimal.Numeral
import Constituency.Decimal.Positional
import Constituency.Decimal.Shortest
import Constituency.Decoding
import Constituency.Grammar.Basic
import Constituency.Grammar.Text
import Constituency.Json.Number
import Constituency.Json.Plain
import Constituency.Json.Quoted
import Constituency.Json.Token
import Constituency.Json.Value
import Constituency.Main
import Constituency.Markovization
import Constituency.OrderedMap
import Constituency.Proofs.Batch
import Constituency.Proofs.Binarization
import Constituency.Proofs.Chart.Offers
import Constituency.Proofs.Chart.Span
import Constituency.Proofs.Chart.Trees
import Constituency.Proofs.Cost
import Constituency.Proofs.Coverage
import Constituency.Proofs.Decimal.Text
import Constituency.Proofs.Decoding.Cells
import Constituency.Proofs.Decoding.Closure
import Constituency.Proofs.Decoding.Completeness
import Constituency.Proofs.Decoding.Decoder
import Constituency.Proofs.Decoding.Division
import Constituency.Proofs.Decoding.Fill
import Constituency.Proofs.Decoding.Optimality
import Constituency.Proofs.Decoding.Readings
import Constituency.Proofs.Decoding.Recurrence
import Constituency.Proofs.Decoding.Sweep
import Constituency.Proofs.Frequencies
import Constituency.Proofs.Generation
import Constituency.Proofs.Grammar.Derivations
import Constituency.Proofs.Grammar.Estimation
import Constituency.Proofs.Grammar.Lines
import Constituency.Proofs.Grammar.Naming
import Constituency.Proofs.Grammar.Permutation
import Constituency.Proofs.Grammar.Shares
import Constituency.Proofs.Grammar.Text
import Constituency.Proofs.Labels
import Constituency.Proofs.Memo
import Constituency.Proofs.Occurrences
import Constituency.Proofs.OrderedMap
import Constituency.Proofs.Realignment
import Constituency.Proofs.Reloading
import Constituency.Proofs.Rule
import Constituency.Proofs.RuleIndex
import Constituency.Proofs.Tagging
import Constituency.Proofs.Text.Lines
import Constituency.Proofs.Text.Words
import Constituency.Proofs.Training
import Constituency.Proofs.Tree.Language
import Constituency.Proofs.Tree.Nodes
import Constituency.Proofs.Tree.Printer
import Constituency.Proofs.Tree.Reader
import Constituency.Proofs.Tree.Shape
import Constituency.Proofs.Tree.Splice
import Constituency.Proofs.Tree.Tokens
import Constituency.Proofs.Treebank
import Constituency.Proofs.Treebank.Balance
import Constituency.Proofs.UnboundedChain
import Constituency.Rule
import Constituency.RuleIndex
import Constituency.Tagging
import Constituency.Text.Blank
import Constituency.Text.Grapheme
import Constituency.Text.GraphemeTable
import Constituency.Text.Lines
import Constituency.Training
import Constituency.Tree.Basic
import Constituency.Tree.Json
import Constituency.Tree.Printer
import Constituency.Tree.Reader
import Constituency.Tree.Shape
import Constituency.Tree.Splice
import Constituency.Treebank
import Constituency.Proofs.Treebank.Joining
import Constituency.Proofs.Treebank.Parts
import Constituency.Proofs.Grammar.History
import Constituency.Proofs.Grammar.Partition
import Constituency.Proofs.Grammar.Placement
import Constituency.Proofs.Grammar.WordTypes
import Constituency.Proofs.Tree.Derivation
import Constituency.Proofs.ChainNames
import Constituency.Proofs.ChainShape
import Constituency.Proofs.Grammar.Renaming
import Constituency.Proofs.WideWindow
import Constituency.Proofs.Chart.Calls
import Constituency.Proofs.Tree.Constituents
import Constituency.Proofs.Grammar.Format
import Constituency.Proofs.Tagging.Steps
import Constituency.Proofs.Grammar.LineForm
import Constituency.Proofs.Chart.Slots
import Constituency.Proofs.Numbering
import Constituency.Proofs.Chart.Unfolding
import Constituency.Proofs.Decoding.Waves
import Constituency.Proofs.Identity
import Constituency.Proofs.Text.Spacing
import Constituency.Proofs.Identity
