import Constituency.Proofs.Coverage
import Constituency.Proofs.Decoding.Decoder
import Constituency.Proofs.Tree.Splice

/-!
# Where labels come from

The label of a node in a derived tree is a candidate of the tagger or the left-hand symbol of a rule
(`Derives.label_of_mem_nodes`). In a trained grammar these are labels of the training trees, but for
the fixed parts of speech and for introduced symbols, which bear a mark. No marked node is left
below the root once the introduced nodes have been removed, so whatever holds of the labels of the
training trees, of the fixed symbols and of the words of a sentence holds of all labels of what is
made of the sentence (`allLabels_of_decode`).
-/

namespace Constituency

open Markovization (isMarked)
open Text (IsWord)

variable {κ : Type} [Cost κ]

/-- The label of a node in a derived tree is a candidate of the tagger, or that of a rule. -/
theorem Grammar.Derives.label_of_mem_nodes {g : Grammar κ} {unknown : UnknownWords κ} {t : Tree}
    {cost : κ} (h : g.Derives unknown t cost) {u : Tree} (hu : u ∈ t.nodes)
    (hleaf : u.isLeaf = false) :
    (∃ word candidates, g.tag unknown word = .ok candidates ∧
        ∃ candidate ∈ candidates, candidate.tag = u.label) ∨
      ∃ rule ∈ g.syntactic, rule.label? = some u.label := by
  induction h with
  | @word text candidates candidate tagged mem =>
    rcases Tree.mem_nodes_node.1 hu with rfl | ⟨c, hc, hu⟩
    · exact Or.inl ⟨text, candidates, tagged, candidate, mem, rfl⟩
    · -- Below a candidate there is only the word.
      obtain rfl := List.mem_singleton.1 hc
      rcases Tree.mem_nodes_node.1 hu with rfl | ⟨d, hd, -⟩
      · exact absurd hleaf nofun
      · exact absurd hd List.not_mem_nil
  | @unary rule label t _ numbered named rhs below ih =>
    rcases Tree.mem_nodes_node.1 hu with rfl | ⟨c, hc, hu⟩
    · exact Or.inr ⟨rule, RuleIndex.mem_syntactic_of_mem_rules numbered, named⟩
    · exact ih (List.mem_singleton.1 hc ▸ hu)
  | @binary rule label l r _ _ numbered named rhs first second ihl ihr =>
    rcases Tree.mem_nodes_node.1 hu with rfl | ⟨c, hc, hmem⟩
    · exact Or.inr ⟨rule, RuleIndex.mem_syntactic_of_mem_rules numbered, named⟩
    · rcases List.mem_cons.1 hc with rfl | hc
      · exact ihl hmem
      · exact ihr (List.mem_singleton.1 hc ▸ hmem)

namespace Training

variable {m : Markovization} {trees : List Tree}

/-- A syntactic rule of a trained grammar rewrites the label of a node of the trees, or an
introduced symbol. -/
theorem exists_node_of_label? (hlabels : ∀ t ∈ trees, t.AllLabels IsWord) {s : Rule κ}
    (h : s ∈ (train m trees : Result κ).grammar.syntactic) {label : String}
    (hlabel : s.label? = some label) (hmark : isMarked label = false) :
    ∃ v ∈ nodes trees, v.label = label := by
  rw [grammar_train m hlabels] at h
  obtain ⟨piece, hpiece, hlhs, -⟩ := Grammar.exists_of_mem_syntactic h
  obtain ⟨rule, hrule, hpiece⟩ := List.mem_flatMap.1 hpiece
  obtain ⟨v, hv, mark, rfl⟩ := exists_node_of_mem_productions hrule
  rw [Rule.label?, hlhs] at hlabel
  rcases Markovization.lhs_eq_or_introduced hpiece with hside | ⟨history, hside⟩
  · rw [hside] at hlabel
    exact ⟨v, hv, Option.some.inj hlabel⟩
  · rw [hside] at hlabel
    obtain rfl := Option.some.inj hlabel
    rw [Markovization.isMarked_introduced] at hmark
    exact Bool.noConfusion hmark

/-- The parts of speech that a trained grammar knows are labels of nodes of the trees. -/
theorem exists_node_of_find?_lexicon (hlabels : ∀ t ∈ trees, t.AllLabels IsWord) {known : String}
    {found : List (Rule κ)}
    (h : (train m trees : Result κ).grammar.lexicon.find? known = some found) {s : Rule κ}
    (hs : s ∈ found) {tag : String} (htag : s.label? = some tag) :
    ∃ v ∈ nodes trees, v.label = tag := by
  rw [grammar_train m hlabels] at h
  obtain ⟨piece, hpiece, hlexical, hlhs, -⟩ := Grammar.exists_lexical_of_find?_lexicon
    (fun piece hpiece => (proper_of_mem_pieces hlabels piece hpiece).toPlain) h hs
  obtain ⟨rule, hrule, hpiece⟩ := List.mem_flatMap.1 hpiece
  -- A lexical rule is no link of a chain, so it is a production itself.
  rcases Markovization.eq_or_isLink_of_mem_pieces hpiece with rfl | hlink
  · obtain ⟨v, hv, mark, rfl⟩ := exists_node_of_mem_productions hrule
    rw [Rule.label?, hlhs] at htag
    exact ⟨v, hv, Option.some.inj htag⟩
  · rw [hlink.lexical] at hlexical
    exact Bool.noConfusion hlexical

/-- A candidate of the tagger is the label of a node of the trees, or a fixed part of speech. -/
theorem exists_node_of_tag (hlabels : ∀ t ∈ trees, t.AllLabels IsWord) {unknown : UnknownWords κ}
    {word : String} {candidates : List (Candidate κ)}
    (h : (train m trees : Result κ).grammar.tag unknown word = .ok candidates)
    {candidate : Candidate κ} (hc : candidate ∈ candidates) :
    (∃ v ∈ nodes trees, v.label = candidate.tag) ∨ candidate.tag = unknown.cardinalTag ∨
      candidate.tag = unknown.properNounTag := by
  rcases Grammar.tag_of_mem h hc with ⟨known, rules, hknown, rule, hr, hlabel⟩ | htag | htag |
    ⟨entry, hentry, htag⟩
  · exact Or.inl (exists_node_of_find?_lexicon hlabels hknown hr hlabel)
  · exact Or.inr (Or.inl htag)
  · exact Or.inr (Or.inr htag)
  · obtain ⟨known, found, hfound, rule, hr, hlabel⟩ := exists_of_mem_smoothing_train hlabels hentry
    exact Or.inl (exists_node_of_find?_lexicon hlabels hfound hr (htag ▸ hlabel))

/-- A node of a derived tree that bears no mark has the label of a node of the trees, or a fixed
part of speech. -/
theorem exists_node_of_derives (hlabels : ∀ t ∈ trees, t.AllLabels IsWord)
    {unknown : UnknownWords κ} {t : Tree} {cost : κ}
    (h : (train m trees : Result κ).grammar.Derives unknown t cost) {u : Tree} (hu : u ∈ t.nodes)
    (hleaf : u.isLeaf = false) (hmark : isMarked u.label = false) :
    (∃ v ∈ nodes trees, v.label = u.label) ∨ u.label = unknown.cardinalTag ∨
      u.label = unknown.properNounTag := by
  rcases h.label_of_mem_nodes hu hleaf with
    ⟨word, candidates, htagged, candidate, hc, htag⟩ | ⟨rule, hrule, hnamed⟩
  · rw [← htag]
    exact exists_node_of_tag hlabels htagged hc
  · exact Or.inl (exists_node_of_label? hlabels hrule hnamed hmark)

/-- All labels of the tree that is made of a sentence have a property if the labels of the training
trees do, and the fixed symbols and the words of the sentence. -/
theorem allLabels_of_decode {P : String → Prop} (hlabels : ∀ t ∈ trees, t.AllLabels IsWord)
    (htrees : ∀ t ∈ trees, t.AllLabels P) {unknown : UnknownWords κ} {start top : String}
    (htop : P top) (hcardinal : P unknown.cardinalTag) (hproper : P unknown.properNounTag)
    {d : Decoder κ}
    (hd : Decoder.ofGrammar (train m trees).grammar unknown start top = .ok d)
    {words : List String} (hwords : ∀ word ∈ words, P word) {r : Derivation κ}
    (hr : d.decode words = .ok r) : r.tree.debinarize.AllLabels P := by
  obtain ⟨hroot, hyield⟩ := Decoder.label_words_of_decode hd hr
  obtain ⟨tagged, t, htag, htree, hderivation⟩ := Decoder.derivation?_of_decode hd hr
  obtain ⟨hparses, -⟩ := Decoder.reading_of_derivation? hd htag hderivation
  refine Tree.allLabels_iff.2 fun u hu => ?_
  cases hleaf : u.isLeaf with
  | true =>
    have hword := Tree.label_mem_words hu hleaf
    rw [Tree.words_debinarize, hyield] at hword
    exact hwords u.label hword
  | false =>
    rcases (Tree.unmarked_debinarize r.tree).eq_or_isMarked hu hleaf with rfl | hmark
    · rw [Tree.label_debinarize, hroot]
      exact htop
    · -- The label is that of a node that there was before the introduced ones were removed.
      obtain ⟨v, hv, hlabel, hvleaf⟩ := Tree.exists_of_mem_nodes_debinarize hu
      rw [← hlabel] at hmark ⊢
      rw [htree] at hv
      rcases Tree.mem_nodes_node.1 hv with rfl | ⟨child, hchild, hmem⟩
      · exact htop
      · obtain rfl := List.mem_singleton.1 hchild
        rcases exists_node_of_derives hlabels hparses.derives hmem (hvleaf.trans hleaf) hmark with
          ⟨w, hw, hsame⟩ | hfixed | hfixed
        · obtain ⟨-, source, hsource, -, hsub⟩ := mem_nodes.1 hw
          exact hsame ▸ Tree.allLabels_iff.1 (htrees source hsource) w hsub
        · exact hfixed ▸ hcardinal
        · exact hfixed ▸ hproper

end Training

end Constituency
