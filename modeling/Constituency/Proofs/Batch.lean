import Constituency.Batch
import Constituency.Proofs.Decoding.Completeness
import Constituency.Proofs.Tree.Splice

/-!
# What a batch comes to

A parser gives every sentence a tree over its words (`parse_answers`). The tree of a derivation has
its words by the derivation, and removing the introduced nodes keeps them; the flat tree has them by
its making. A batch is parsed sentence by sentence, so the outcomes stand in the order of the
sentences and each is that of its own sentence (`parseAll_faithful`).
-/

namespace Constituency

variable {κ : Type} [Cost κ]

omit [Cost κ] in
/-- Every outcome of a batch is counted once, as parsed or as a fallback. -/
theorem BatchSummary.parsed_add_fallbacks (outcomes : List (Outcome κ)) :
    (ofOutcomes outcomes).parsed + (ofOutcomes outcomes).fallbacks = outcomes.length :=
  Nat.sub_add_cancel List.countP_le_length

namespace BatchParser

variable {g : Grammar κ} {config : Config κ} {parser : BatchParser κ}

/-- What a parser owes to a sentence: the outcome of parsing it alone, which is a tree under the top
symbol over the words of the sentence. It is the flat tree just if there is no parse, and otherwise
there are no introduced nodes in it. -/
structure Answers (parser : BatchParser κ) (config : Config κ) (sentence : List String)
    (outcome : Outcome κ) : Prop where
  /-- It is the outcome of the sentence alone. -/
  alone : parser.parse sentence = .ok outcome
  /-- The top symbol stands at the root. -/
  label : outcome.tree.label = config.topSymbol
  /-- The leaves are the words of the sentence, in order. -/
  words : outcome.tree.words = sentence
  /-- A flat tree has no cost, and any other tree has one. -/
  cost : outcome.isFallback = true ↔ outcome.cost? = none
  /-- The tree is flat if the sentence has no parse, and only then. -/
  noParse : outcome.isFallback = true ↔
    parser.decoder.decode sentence = .error (.noParse config.startSymbol sentence.length)
  /-- No node below the root is an introduced one, unless the tree is flat. -/
  unmarked : outcome.isFallback = false → outcome.tree.Unmarked

omit [Cost κ] in
/-- A grammar and a configuration that make a parser, and what they make of it. -/
theorem ofGrammar_eq_ok_iff :
    BatchParser.ofGrammar g config = .ok parser ↔
      config.validate = .ok () ∧ ∃ d,
        Decoder.ofGrammar g config.unknown config.startSymbol config.topSymbol = .ok d ∧
          parser = ⟨d, config.baselineTag⟩ := by
  unfold BatchParser.ofGrammar
  simp only [bind_eq_ok_iff, mapError_eq_ok_iff]
  constructor
  · rintro ⟨checked, hvalid, d, hd, hparser⟩
    exact ⟨hvalid, d, hd, (Except.ok.inj hparser).symm⟩
  · rintro ⟨hvalid, d, hd, rfl⟩
    exact ⟨(), hvalid, d, hd, rfl⟩

/-- If the rules of its grammar have one symbol on the left, a parser answers every sentence. -/
theorem exists_answers (hparser : BatchParser.ofGrammar g config = .ok parser) (hone : g.OneLeft)
    {words : List String} (hwords : words ≠ []) :
    ∃ outcome, parser.Answers config words outcome := by
  obtain ⟨-, d, hd, rfl⟩ := ofGrammar_eq_ok_iff.1 hparser
  have htop : d.top = config.topSymbol := by rw [Decoder.eq_of_ofGrammar hd]
  rcases Decoder.decode_cases hd hone words with ⟨r, hr⟩ | hnone
  · -- The tree of the derivation, without its introduced nodes.
    obtain ⟨hlabel, hyield⟩ := Decoder.label_words_of_decode hd hr
    have hparsed : (Outcome.parsed r.tree.debinarize r.cost).isFallback ≠ true := Bool.false_ne_true
    refine ⟨.parsed r.tree.debinarize r.cost, ?_, ?_, ?_, ?_, ?_, ?_⟩
    · rw [BatchParser.parse, hr]
    · exact (Tree.label_debinarize r.tree).trans hlabel
    · exact (Tree.words_debinarize r.tree).trans hyield
    · exact ⟨fun h => absurd h hparsed, fun h => absurd h (Option.some_ne_none r.cost)⟩
    · exact ⟨fun h => absurd h hparsed, fun hnone => absurd (hr.symm.trans hnone) nofun⟩
    · exact fun _ => Tree.unmarked_debinarize r.tree
  · -- The flat tree.
    refine ⟨.fallback (.baseline words config.baselineTag d.top), ?_, htop, ?_, ?_, ?_, ?_⟩
    · rw [BatchParser.parse, hnone]
    · exact Tree.words_baseline hwords config.baselineTag d.top
    · exact ⟨fun _ => rfl, fun _ => rfl⟩
    · exact ⟨fun _ => hnone, fun _ => rfl⟩
    · exact fun h => absurd h.symm Bool.false_ne_true

/-- The words of the trees that sentences are answered with are the sentences. -/
theorem map_words_of_answers {sentences : List (List String)} {outcomes : List (Outcome κ)}
    (h : List.Forall₂ (parser.Answers config) sentences outcomes) :
    outcomes.map (fun outcome => outcome.tree.words) = sentences := by
  have hsame : List.Forall₂ Eq sentences (outcomes.map fun outcome => outcome.tree.words) :=
    List.forall₂_map_right_iff.2 (h.imp fun _ _ hanswer => hanswer.words.symm)
  rw [List.forall₂_eq_eq_eq] at hsame
  exact hsame.symm

/-- A batch is parsed by parsing its sentences. -/
theorem parseAll_eq_ok_iff {sentences : List (List String)} {outcomes : List (Outcome κ)}
    {summary : BatchSummary} :
    parser.parseAll sentences = .ok (outcomes, summary) ↔
      List.Forall₂ (fun words outcome => parser.parse words = .ok outcome) sentences outcomes ∧
        summary = .ofOutcomes outcomes := by
  unfold BatchParser.parseAll
  rw [← mapM_eq_ok_iff, bind_eq_ok_iff]
  constructor
  · rintro ⟨found, hfound, hsame⟩
    obtain ⟨rfl, rfl⟩ := Prod.mk.inj (Except.ok.inj hsame)
    exact ⟨hfound, rfl⟩
  · rintro ⟨hfound, rfl⟩
    exact ⟨outcomes, hfound, rfl⟩

/-- If the rules of its grammar have one symbol on the left, a parser answers the sentences of every
batch, one by one. -/
theorem exists_parseAll_eq_ok (hparser : BatchParser.ofGrammar g config = .ok parser)
    (hone : g.OneLeft) {sentences : List (List String)} (hne : ∀ words ∈ sentences, words ≠ []) :
    ∃ outcomes, parser.parseAll sentences = .ok (outcomes, .ofOutcomes outcomes) ∧
      List.Forall₂ (parser.Answers config) sentences outcomes := by
  have hall : ∃ outcomes, List.Forall₂ (parser.Answers config) sentences outcomes := by
    induction sentences with
    | nil => exact ⟨[], .nil⟩
    | cons words rest ih =>
      obtain ⟨outcome, hfirst⟩ := exists_answers hparser hone (hne words List.mem_cons_self)
      obtain ⟨outcomes, hrest⟩ := ih fun other ho => hne other (List.mem_cons_of_mem words ho)
      exact ⟨outcome :: outcomes, .cons hfirst hrest⟩
  obtain ⟨outcomes, hanswers⟩ := hall
  exact ⟨outcomes, parseAll_eq_ok_iff.2 ⟨hanswers.imp fun _ _ h => h.alone, rfl⟩, hanswers⟩

/-- A grammar that has parts of speech for unknown words and whose rules have one symbol on the left
makes a parser, unless the configuration is refused. The parser gives every sentence of a batch that
has words an outcome of its own, and the figures of the batch are those of the outcomes. -/
theorem parseAll_faithful (hsmoothing : g.smoothing ≠ []) (hone : g.OneLeft) (config : Config κ) :
    (∀ error, config.validate = .error error →
      BatchParser.ofGrammar g config = .error (.config error)) ∧
    (config.validate = .ok () → ∃ parser, BatchParser.ofGrammar g config = .ok parser ∧
      ∀ sentences : List (List String), (∀ words ∈ sentences, words ≠ []) →
        ∃ outcomes summary, parser.parseAll sentences = .ok (outcomes, summary) ∧
          List.Forall₂ (parser.Answers config) sentences outcomes ∧
          summary.sentences = sentences.length ∧
          summary.fallbacks = outcomes.countP Outcome.isFallback ∧
          summary.parsed + summary.fallbacks = summary.sentences) := by
  constructor
  · intro error hinvalid
    rw [BatchParser.ofGrammar, hinvalid]
    rfl
  · intro hvalid
    obtain ⟨d, hd⟩ := Decoder.exists_ofGrammar_eq_ok hsmoothing config.unknown config.startSymbol
      config.topSymbol
    have hparser := ofGrammar_eq_ok_iff.2 ⟨hvalid, d, hd, rfl⟩
    refine ⟨_, hparser, fun sentences hne => ?_⟩
    obtain ⟨outcomes, hparse, hanswers⟩ := exists_parseAll_eq_ok hparser hone hne
    exact ⟨outcomes, .ofOutcomes outcomes, hparse, hanswers, hanswers.length_eq.symm, rfl,
      BatchSummary.parsed_add_fallbacks outcomes⟩

/-- A grammar with an introduced symbol and a part of speech that bears the mark of one. -/
def loudDogs : Grammar WholeCost where
  counts := .empty
  syntactic := [.plain ⟨["S"]⟩ ⟨["N", "[N]@S"]⟩ ⟨1⟩, .plain ⟨["[N]@S"]⟩ ⟨["V", "A@"]⟩ ⟨0⟩]
  lexicon := ⟨[("dogs", [.ofWord "N" "dogs" ⟨2⟩]), ("bark", [.ofWord "V" "bark" ⟨3⟩]),
    ("lo@d", [.ofWord "A@" "lo@d" ⟨1⟩])]⟩
  smoothing := [⟨"N", ⟨1⟩⟩]

/-- The outcomes of a sentence with both of them and of a sentence without a parse. -/
theorem parseAll_faithful_loudDogs :
    loudDogs.smoothing ≠ [] ∧ loudDogs.OneLeft ∧
      ∃ parser, BatchParser.ofGrammar loudDogs (.standard ⟨1⟩) = .ok parser ∧
        parser.parseAll [["dogs", "bark", "lo@d"], ["bark"]] =
          .ok ([.parsed (.node "TOP" [.node "S" [.node "N" [.leaf "dogs"], .node "V" [.leaf "bark"],
              .leaf "lo@d"]]) ⟨7⟩, .fallback (.node "TOP" [.node "NN" [.leaf "bark"]])],
            ⟨2, 1, 1⟩) ∧
        ∃ outcomes summary,
          parser.parseAll [["dogs", "bark", "lo@d"], ["bark"]] = .ok (outcomes, summary) ∧
          List.Forall₂ (parser.Answers (.standard ⟨1⟩)) [["dogs", "bark", "lo@d"], ["bark"]]
            outcomes ∧
          summary.sentences = 2 ∧ summary.fallbacks = outcomes.countP Outcome.isFallback ∧
          summary.parsed + summary.fallbacks = summary.sentences := by
  have hsmoothing : loudDogs.smoothing ≠ [] := List.cons_ne_nil _ _
  have hone : loudDogs.OneLeft := Grammar.oneLeft_of_values (by decide) (by decide)
  obtain ⟨parser, hparser, hbatch⟩ := (parseAll_faithful hsmoothing hone (.standard ⟨1⟩)).2 rfl
  have hmade : parser = ⟨⟨loudDogs, .ofGrammar loudDogs, .standard ⟨1⟩, "S", "TOP"⟩, "NN"⟩ :=
    (Except.ok.inj hparser).symm
  have hrun : parser.parseAll [["dogs", "bark", "lo@d"], ["bark"]] =
      .ok ([.parsed (.node "TOP" [.node "S" [.node "N" [.leaf "dogs"], .node "V" [.leaf "bark"],
          .leaf "lo@d"]]) ⟨7⟩, .fallback (.node "TOP" [.node "NN" [.leaf "bark"]])],
        ⟨2, 1, 1⟩) := by
    rw [hmade]
    decide +kernel
  exact ⟨hsmoothing, hone, parser, hparser, hrun, hbatch _ (by decide)⟩

end BatchParser

end Constituency
