import Constituency.Proofs.Coverage
import Constituency.Proofs.Grammar.Text

/-!
# Grammars survive their text format

A grammar that has been read from texts is read back from the texts that are written of it, without
any change. So is a trained grammar (`writable_train`), but for what the format cannot hold: the
counts, the marks of roots, and a word that is equal to the reserved one. All this supposes that the
costs are read back from their texts, and it does not depend on how rules are priced.
-/

namespace Constituency

open Text (IsWord)

namespace Training

open Grammar

variable {κ : Type} [Cost κ] {m : Markovization} {trees : List Tree}

/-- The syntactic rules of a trained grammar fit on lines. -/
theorem fitsLine_of_mem_syntactic (hlabels : ∀ t ∈ trees, t.AllLabels IsWord) {s : Rule κ}
    (h : s ∈ (train m trees : Result κ).grammar.syntactic) : s.FitsLine := by
  rw [grammar_train m hlabels] at h
  obtain ⟨piece, hmem, hlhs, hrhs⟩ := exists_of_mem_syntactic h
  have hproper := proper_of_mem_pieces hlabels piece hmem
  obtain ⟨rule, hrule, hpiece⟩ := List.mem_flatMap.1 hmem
  have hpos := Markovization.size_pos_of_mem_pieces (size_pos_of_mem_productions hrule) hpiece
  have hle := Markovization.size_le_of_mem_pieces hpiece
  refine ⟨⟨hlhs ▸ hproper.lhs, hrhs ▸ hproper.rhs⟩, ?_, ?_, ?_⟩
  · rw [hlhs]
    exact hproper.single
  · rw [Rule.isUnary, Rule.isBinary, hrhs, beq_iff_eq, beq_iff_eq]
    omega
  · have hsyntactic := (List.mem_filter.1 h).2
    rwa [Bool.not_eq_true'] at hsyntactic

/-- A word of a trained grammar fits on a line with its rules. -/
theorem fitsWordLine_of_find? (hlabels : ∀ t ∈ trees, t.AllLabels IsWord) {word : String}
    {found : List (Rule κ)}
    (h : (train m trees : Result κ).grammar.lexicon.find? word = some found) :
    FitsWordLine word found := by
  rw [grammar_train m hlabels] at h
  have hproper := proper_of_mem_pieces (κ := κ) (m := m) hlabels
  -- Each rule has the sides of a lexical one, so it stands over one word, which is this one.
  have hrules : ∀ s ∈ found, IsWord word ∧
      ∃ tag, IsWord tag ∧ s.unmarked = .ofWord tag word s.cost := by
    intro s hs
    obtain ⟨piece, hpiece, hlexical, hlhs, hrhs⟩ := exists_lexical_of_find?_lexicon
      (fun piece hpiece => (hproper piece hpiece).toPlain) h hs
    have hpiece := hproper piece hpiece
    obtain ⟨tag, htag⟩ := List.length_eq_one_iff.1 hpiece.single
    obtain ⟨only, honly⟩ := List.length_eq_one_iff.1 (hpiece.lexical hlexical)
    have hleft : s.lhs = Side.single tag := hlhs.trans (congrArg Side.mk htag)
    have hright : s.rhs = Side.single only := hrhs.trans (congrArg Side.mk honly)
    rw [find?_lexiconOf h] at hs
    obtain ⟨hkept, htext⟩ := List.mem_filter.1 hs
    obtain rfl : only = word := by
      rw [beq_iff_eq, hright, Side.text_single] at htext
      exact htext
    refine ⟨hpiece.rhs only (honly ▸ List.mem_cons_self), tag,
      hpiece.lhs tag (htag ▸ List.mem_cons_self), ?_⟩
    rw [Rule.unmarked, hleft, hright, (List.mem_filter.1 hkept).2, Rule.ofWord]
  have hne : found ≠ [] := ne_nil_of_find?_lexiconOf h
  obtain ⟨s, hs⟩ := List.exists_mem_of_ne_nil _ hne
  obtain ⟨hword, -⟩ := hrules s hs
  refine ⟨fun htab => ?_, fun hfeed => ?_, hne, fun s hs => (hrules s hs).2⟩
  · exact absurd (hword.plain _ htab) (by decide)
  · exact absurd (hword.plain _ hfeed) (by decide)

/-- The rules and words of a trained grammar fit on lines. -/
theorem writable_train (hlabels : ∀ t ∈ trees, t.AllLabels IsWord) :
    (train m trees : Result κ).grammar.Writable := by
  refine ⟨fun s hs => fitsLine_of_mem_syntactic hlabels hs, ?_,
    fun h => fitsWordLine_of_find? hlabels h, fun entry hentry => ?_⟩
  · rw [grammar_train m hlabels]
    exact nodup_keys_lexiconOf _
  · obtain ⟨known, found, hknown, s, hs, hlabel⟩ := exists_of_mem_smoothing_train hlabels hentry
    obtain ⟨tag, htag, hrule⟩ := (fitsWordLine_of_find? hlabels hknown).ofWord s hs
    have hlhs : s.lhs = Side.single tag := congrArg Rule.lhs hrule
    rw [Rule.label?, hlhs] at hlabel
    obtain rfl := Option.some.inj hlabel
    exact htag

end Training

namespace Grammar

/-- Writing a grammar and reading it again. If costs are read back from their texts, a grammar that
has been read from two texts is read back as it is. A grammar that has been trained on a treebank is
read back but for the counts, the marks of roots and the reserved word, and it is written in the
same lines again. -/
theorem reload_eq_written [Cost Float] :
    (∀ (rules lexicon : String) (g : Grammar Float), ofText rules lexicon = .ok g →
      g.CostsReadBack → g.reload = .ok g) ∧
    ∀ (text : String) (m : Markovization),
      let g : Grammar Float := (train m (Treebank.read text).trees).grammar
      g.CostsReadBack → g.reload = .ok g.written ∧
        g.written.ruleLines = g.ruleLines ∧ g.written.lexiconLines = g.lexiconLines := by
  constructor
  · intro rules lexicon g hg hcosts
    have hloaded := loaded_of_ofText hg
    rw [hloaded.toWritable.reload_eq hcosts, hloaded.written_eq]
  · intro text m g hcosts
    have hwritable : g.Writable :=
      Training.writable_train fun t ht => Treebank.allLabels_of_mem_trees ht
    exact ⟨hwritable.reload_eq hcosts, ruleLines_written g, lexiconLines_written g⟩

/-- Whole numbers as doubles: a share costs as many units as there are other occurrences. -/
abbrev wholeShares : Cost Float where
  zero := 0.0
  decidableLT := fun a b => inferInstanceAs (Decidable (a < b))
  ofShare := fun count total => Float.ofNat (total - count)

/-- Lines of rules with blank lines between them. -/
def looseRules : String := "0.5\tS\tNP VP\r\n\n 3\tNP\t NN\n"

/-- Lines of a lexicon with an empty word, a word with a blank, and words that occur again. -/
def looseLexicon : String :=
  "dog\tNN 0.25\n\tDT 1\nNew York\tNNP 2 NN 0.5\nUNKNOWN\tNN 0\ndog\tVB NaN\nUNKNOWN\tVB inf"

/-- The grammar that is read from them. -/
def looseGrammar : Grammar Float where
  counts := .empty
  syntactic := [.plain ⟨["S"]⟩ ⟨["NP", "VP"]⟩ 0.5, .plain ⟨["NP"]⟩ ⟨["NN"]⟩ 3]
  lexicon := ⟨[("dog", [.ofWord "NN" "dog" 0.25, .ofWord "VB" "dog" (0.0 / 0.0)]),
    ("", [.ofWord "DT" "" 1]),
    ("New York", [.ofWord "NNP" "New York" 2, .ofWord "NN" "New York" 0.5])]⟩
  smoothing := [⟨"NN", 0⟩, ⟨"VB", 1.0 / 0.0⟩]

/-- A treebank with the reserved word. -/
def unknownDog : String := "(S (NP (DT the) (JJ old) (NN UNKNOWN)) (VP (VB barks)))"

/-- The grammar that has been read is read back, and so is one that has been trained. -/
theorem reload_eq_written_unknownDog :
    ofText looseRules looseLexicon = .ok looseGrammar ∧ looseGrammar.CostsReadBack ∧
      looseGrammar.reload = .ok looseGrammar ∧
      let g := (@train Float wholeShares (.order 1) (Treebank.read unknownDog).trees).grammar
      g.CostsReadBack ∧ g.lexicon.contains unknownWord = true ∧ g.reload = .ok g.written := by
  have hread : (ofText looseRules looseLexicon).toOption = some looseGrammar := by decide +kernel
  have hread : ofText looseRules looseLexicon = .ok looseGrammar := by
    cases h : ofText looseRules looseLexicon with
    | error e =>
      rw [h] at hread
      exact absurd hread nofun
    | ok g =>
      rw [h] at hread
      exact congrArg Except.ok (Option.some.inj hread)
  have hcosts : looseGrammar.CostsReadBack := by decide +kernel
  have htrained : (@train Float wholeShares (.order 1)
      (Treebank.read unknownDog).trees).grammar.CostsReadBack := by decide +kernel
  have hreserved : (@train Float wholeShares (.order 1)
      (Treebank.read unknownDog).trees).grammar.lexicon.contains unknownWord = true := by
    decide +kernel
  obtain ⟨hloaded, htrain⟩ := @reload_eq_written wholeShares
  exact ⟨hread, hcosts, hloaded _ _ _ hread hcosts, htrained, hreserved,
    (htrain unknownDog (.order 1) htrained).1⟩

end Grammar

end Constituency
