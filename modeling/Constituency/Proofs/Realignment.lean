import Constituency.CommandLine.Run
import Constituency.Proofs.Batch
import Constituency.Proofs.Labels
import Constituency.Proofs.Treebank

/-!
# The trees of a run stand beside those of the treebank

A run writes the tree of every sentence on a line of its own. No label of such a tree holds a blank
or a parenthesis: the words come from the treebank that is parsed, the other labels from the one
that is trained on and from the configuration (`areAtoms_of_parse`). So the trees are read back
from their lines, as many as there are in the treebank, and over the same words (`run_realigns`).
-/

namespace Constituency

open Text (IsWord)
open Constituency.Tree (IsAtom)

variable {κ : Type} [Cost κ]

/-- The symbols that a configuration puts into trees hold neither blanks nor parentheses. -/
structure Config.WritesAtoms (config : Config κ) : Prop where
  /-- The label over every tree. -/
  topSymbol : IsAtom config.topSymbol
  /-- The part of speech in flat trees. -/
  baselineTag : IsAtom config.baselineTag
  /-- The part of speech of unknown numerals. -/
  cardinalTag : IsAtom config.unknown.cardinalTag
  /-- The part of speech of unknown capitalized words. -/
  properNounTag : IsAtom config.unknown.properNounTag

namespace BatchParser

/-- The tree that a parser of a trained grammar gives a sentence is more than a word. If no label of
the training trees and no word holds a blank or a parenthesis, nor does any label of the tree. -/
theorem areAtoms_of_parse {m : Markovization} {trees : List Tree}
    (htrees : ∀ t ∈ trees, t.AllLabels IsAtom) {config : Config κ} (hconfig : config.WritesAtoms)
    {parser : BatchParser κ}
    (hparser : BatchParser.ofGrammar (train m trees).grammar config = .ok parser)
    {words : List String} (hne : words ≠ []) (hwords : ∀ word ∈ words, IsAtom word)
    {outcome : Outcome κ} (h : parser.parse words = .ok outcome) :
    outcome.tree.AllLabels IsAtom ∧ outcome.tree.isLeaf = false := by
  have hlabels : ∀ t ∈ trees, t.AllLabels IsWord :=
    fun t ht => (htrees t ht).mono fun _ hlabel => hlabel.isWord
  obtain ⟨-, d, hd, rfl⟩ := ofGrammar_eq_ok_iff.1 hparser
  rcases Decoder.decode_cases hd (Training.oneLeft_train hlabels) words with ⟨r, hr⟩ | hnone
  · rw [BatchParser.parse, hr] at h
    obtain rfl := Except.ok.inj h
    obtain ⟨tagged, t, -, htree, -⟩ := Decoder.derivation?_of_decode hd hr
    constructor
    · exact Training.allLabels_of_decode hlabels htrees hconfig.topSymbol hconfig.cardinalTag
        hconfig.properNounTag hd hwords hr
    · rw [Outcome.tree, Tree.isLeaf_debinarize, htree]
      rfl
  · rw [BatchParser.parse, hnone] at h
    obtain rfl := Except.ok.inj h
    have htop : IsAtom d.top := by
      rw [Decoder.eq_of_ofGrammar hd]
      exact hconfig.topSymbol
    constructor
    · exact Tree.allLabels_baseline htop hconfig.baselineTag hwords
    · exact List.isEmpty_eq_false_iff.2 (mt List.map_eq_nil_iff.1 hne)

end BatchParser

/-- A file of parsed trees stands line by line beside a treebank: every line is read as the tree of
the outcome for one of its sentences, and the file as a treebank over the same sentences. -/
structure Realigned (gold parsed : String) (outcomes : List (Outcome κ)) : Prop where
  /-- There is a line for every tree. -/
  length : (Text.lines parsed).length = (Treebank.read gold).trees.length
  /-- The tree on a line is that of the outcome. -/
  lines : List.Forall₂ (fun line outcome => Tree.read line = .ok outcome.tree) (Text.lines parsed)
    outcomes
  /-- Nothing is rejected when the file is read as a treebank. -/
  skipped : (Treebank.read parsed).skipped = 0
  /-- The sentences are those of the treebank, in order. -/
  sentences : (Treebank.read parsed).sentences = (Treebank.read gold).sentences

omit [Cost κ] in
/-- The trees of outcomes are read back from their lines. -/
theorem Realigned.of_outcomes {gold : String} {outcomes : List (Outcome κ)}
    (htrees : ∀ outcome ∈ outcomes, outcome.tree.AllLabels IsAtom ∧ outcome.tree.isLeaf = false)
    (hwords : outcomes.map (fun outcome => outcome.tree.words) = (Treebank.read gold).sentences) :
    Realigned gold (Text.unlines (outcomes.map fun outcome => outcome.tree.text)) outcomes := by
  have htexts : outcomes.map (fun outcome => outcome.tree.text) =
      (outcomes.map Outcome.tree).map Tree.text := List.map_map.symm
  have hmem : ∀ t ∈ outcomes.map Outcome.tree, t.AllLabels IsAtom ∧ t.isLeaf = false := by
    intro t ht
    obtain ⟨outcome, ho, rfl⟩ := List.mem_map.1 ht
    exact htrees outcome ho
  have hlines := Treebank.lines_unlines_text fun t ht => (hmem t ht).1
  have hread := Treebank.read_unlines hmem
  rw [htexts]
  refine ⟨?_, ?_, ?_, ?_⟩
  · have hlength := congrArg List.length hwords
    rw [Treebank.sentences, List.length_map, List.length_map] at hlength
    rw [hlines, List.length_map, List.length_map, hlength]
  · rw [hlines, ← htexts, List.forall₂_map_left_iff, List.forall₂_same]
    intro outcome ho
    obtain ⟨hlabels, hleaf⟩ := htrees outcome ho
    exact Tree.read_text hlabels hleaf
  · rw [hread]
    rfl
  · rw [hread, ← hwords, Treebank.sentences, List.map_map]
    rfl

namespace CommandLine

/-- What a run writes and reports once the grammar has been trained and the sentences parsed. -/
def Success.of (experiment : String) (threads : Option Nat) (trained : Training.Result Float)
    (outcomes : List (Outcome Float)) (summary : BatchSummary) : Success where
  files :=
    [(experiment ++ ".parsed", Text.unlines (outcomes.map fun outcome => outcome.tree.text)),
      (experiment ++ ".gram", Text.unlines trained.grammar.ruleLines),
      (experiment ++ ".lex", Text.unlines trained.grammar.lexiconLines)]
  report := ⟨trained.stats, summary, threads⟩

variable {files : String → Option ByteArray} {arguments : Arguments}

/-- A file that holds a text is read as this text. -/
theorem textOf_eq_some {path text : String} (h : files path = some text.toByteArray) :
    textOf files path = some text := by
  rw [textOf, h, Option.bind_some, String.fromUTF8?, dif_pos text.isValidUTF8]
  rfl

/-- A treebank is read from the text of its file. -/
theorem readTreebank_eq_ok_iff {path : String} {bank : Treebank} :
    readTreebank files path = .ok bank ↔
      ∃ text, textOf files path = some text ∧ bank = Treebank.read text := by
  unfold readTreebank
  cases textOf files path with
  | none =>
    constructor
    · exact nofun
    · rintro ⟨text, htext, -⟩
      exact absurd htext nofun
  | some text =>
    constructor
    · intro h
      exact ⟨text, rfl, (Except.ok.inj h).symm⟩
    · rintro ⟨other, hother, rfl⟩
      obtain rfl := Option.some.inj hother
      rfl

/-- A run succeeds if each of its steps does: there is a configuration, both treebanks can be read,
the trained grammar makes a parser, and this parses all sentences. -/
theorem run_eq_ok_iff {success : Success} :
    run files arguments = .ok success ↔
      ∃ config gold training parser outcomes summary,
        configure files arguments = .ok config ∧
        textOf files arguments.gold = some gold ∧
        textOf files arguments.training = some training ∧
        BatchParser.ofGrammar
          (train config.markovization (Treebank.read training).trees).grammar config =
            .ok parser ∧
        parser.parseAll (Treebank.read gold).sentences = .ok (outcomes, summary) ∧
        success = .of arguments.experiment config.threads
          (train config.markovization (Treebank.read training).trees) outcomes summary := by
  unfold run
  simp only [bind_eq_ok_iff, mapError_eq_ok_iff, readTreebank_eq_ok_iff]
  constructor
  · rintro ⟨config, hconfig, _, ⟨gold, hgold, rfl⟩, _, ⟨training, htraining, rfl⟩, parser, hparser,
      ⟨outcomes, summary⟩, hparse, hsuccess⟩
    exact ⟨config, gold, training, parser, outcomes, summary, hconfig, hgold, htraining, hparser,
      hparse, (Except.ok.inj hsuccess).symm⟩
  · rintro ⟨config, gold, training, parser, outcomes, summary, hconfig, hgold, htraining, hparser,
      hparse, rfl⟩
    exact ⟨config, hconfig, _, ⟨gold, hgold, rfl⟩, _, ⟨training, htraining, rfl⟩, parser, hparser,
      (outcomes, summary), hparse, rfl⟩

/-- The trees that a run writes stand line by line beside the treebank that it has parsed, if the
configuration puts neither blanks nor parentheses into trees. -/
theorem run_realigns {config : Config Float} (hconfig : configure files arguments = .ok config)
    (hatoms : config.WritesAtoms) {success : Success} (h : run files arguments = .ok success) :
    ∃ gold training parser outcomes parsed,
      textOf files arguments.gold = some gold ∧
      textOf files arguments.training = some training ∧
      BatchParser.ofGrammar
        (train config.markovization (Treebank.read training).trees).grammar config = .ok parser ∧
      parser.parseAll (Treebank.read gold).sentences =
        .ok (outcomes, success.report.decoding) ∧
      success.files.lookup (arguments.experiment ++ ".parsed") = some parsed ∧
      Realigned gold parsed outcomes := by
  obtain ⟨_, gold, training, parser, outcomes, summary, hsame, hgold, htraining, hparser, hparse,
    rfl⟩ := run_eq_ok_iff.1 h
  obtain rfl := Except.ok.inj (hconfig.symm.trans hsame)
  have htrees : ∀ t ∈ (Treebank.read training).trees, t.AllLabels IsAtom :=
    fun t ht => Treebank.areAtoms_of_mem_trees ht
  have hone := Training.oneLeft_train (κ := Float) (m := config.markovization)
    fun t ht => (htrees t ht).mono fun _ hlabel => hlabel.isWord
  -- Every sentence has words, so the parser answers all of them, and these are the outcomes.
  obtain ⟨found, hfound, hanswers⟩ := BatchParser.exists_parseAll_eq_ok hparser hone
    fun words hwords => (Treebank.of_mem_sentences hwords).1
  obtain ⟨rfl, rfl⟩ := Prod.mk.inj (Except.ok.inj (hfound.symm.trans hparse))
  have hatom : ∀ outcome ∈ found, outcome.tree.AllLabels IsAtom ∧ outcome.tree.isLeaf = false := by
    intro outcome ho
    obtain ⟨words, hwords, halone⟩ :=
      exists_of_mem_mapM (mapM_eq_ok_iff.2 (BatchParser.parseAll_eq_ok_iff.1 hparse).1) ho
    obtain ⟨hne, hword⟩ := Treebank.of_mem_sentences hwords
    exact BatchParser.areAtoms_of_parse htrees hatoms hparser hne hword halone
  exact ⟨gold, training, parser, found, _, hgold, htraining, hparser, hparse,
    List.lookup_cons_self, .of_outcomes hatom (BatchParser.map_words_of_answers hanswers)⟩

/-- A text with a tree in a wrapper, text outside of trees, a tree of words that are not known and a
tree that is never closed. -/
def barkingText : String :=
  "( (S (NP (DT the) (NN dog)) (VP (VB barks))) ) stray\n(X (Y 42) (Z UFOs)) (S"

/-- A treebank to train on. -/
def trainingText : String := "(S (NP (DT the) (JJ old) (NN dog)) (VP (VB barks)))\n"

/-- The files of a run. -/
def barkingFiles (path : String) : Option ByteArray :=
  if path = "gold" then some barkingText.toByteArray
  else if path = "train" then some trainingText.toByteArray
  else none

/-- A run over these files succeeds, and the trees that it writes stand beside those of the text. -/
theorem run_realigns_barking :
    configure barkingFiles ⟨"gold", "train", "out", none, none, none, false⟩ =
        .ok Config.default ∧
      Config.default.WritesAtoms ∧
      (Treebank.read barkingText).skipped = 2 ∧
      (Treebank.read barkingText).sentences = [["the", "dog", "barks"], ["42", "UFOs"]] ∧
      ∃ success,
        run barkingFiles ⟨"gold", "train", "out", none, none, none, false⟩ = .ok success ∧
        ∃ gold training parser outcomes parsed,
          textOf barkingFiles "gold" = some gold ∧
          textOf barkingFiles "train" = some training ∧
          BatchParser.ofGrammar (train .unbounded (Treebank.read training).trees).grammar
            Config.default = .ok parser ∧
          parser.parseAll (Treebank.read gold).sentences =
            .ok (outcomes, success.report.decoding) ∧
          success.files.lookup "out.parsed" = some parsed ∧ Realigned gold parsed outcomes := by
  let arguments : Arguments := ⟨"gold", "train", "out", none, none, none, false⟩
  have hconfig : configure barkingFiles arguments = .ok Config.default := rfl
  have hatoms : Config.default.WritesAtoms :=
    ⟨by decide +kernel, by decide +kernel, by decide +kernel, by decide +kernel⟩
  have hskipped : (Treebank.read barkingText).skipped = 2 := by decide +kernel
  have hsentences : (Treebank.read barkingText).sentences =
      [["the", "dog", "barks"], ["42", "UFOs"]] := by decide +kernel
  have hgold : textOf barkingFiles "gold" = some barkingText := textOf_eq_some rfl
  have htraining : textOf barkingFiles "train" = some trainingText := textOf_eq_some rfl
  let trees := (Treebank.read trainingText).trees
  have hlabels : ∀ t ∈ trees, t.AllLabels IsWord := fun t ht => Treebank.allLabels_of_mem_trees ht
  obtain ⟨t, ht, hvalid⟩ : ∃ t ∈ trees, t.validate = .ok () := by decide +kernel
  have hsmoothing : (train .unbounded trees : Training.Result Float).grammar.smoothing ≠ [] :=
    Training.smoothing_train_ne_nil hlabels ht hvalid
  obtain ⟨d, hd⟩ := Decoder.exists_ofGrammar_eq_ok hsmoothing Config.default.unknown
    Config.default.startSymbol Config.default.topSymbol
  have hparser := BatchParser.ofGrammar_eq_ok_iff.2 ⟨rfl, d, hd, rfl⟩
  obtain ⟨outcomes, hparse, -⟩ := BatchParser.exists_parseAll_eq_ok hparser
    (Training.oneLeft_train hlabels) fun words hwords => (Treebank.of_mem_sentences hwords).1
  have hrun := run_eq_ok_iff.2 ⟨_, _, _, _, outcomes, _, hconfig, hgold, htraining, hparser, hparse,
    rfl⟩
  exact ⟨hconfig, hatoms, hskipped, hsentences, _, hrun, run_realigns hconfig hatoms hrun⟩

end CommandLine

end Constituency
