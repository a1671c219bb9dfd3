import Constituency.Proofs.Labels

/-!
# What a trained grammar derives

Trained without a bound, a grammar derives no node that is not in its treebank. A chart may put
links together that come from different productions, but the symbol between two links tells all that
has been taken so far, so whatever links stand above each other are a whole chain of one production
(`Restored.of_derives`). Once the introduced nodes have been removed, every node has the production
of a node of a training tree, or it is a part of speech that the tagger has given a word
(`attested_of_decode`).
-/

namespace Constituency

open Markovization
open Text (IsWord)

variable {κ : Type} [Cost κ]

namespace Training

open Grammar

variable {m : Markovization} {trees : List Tree}

/-! ## The rules of a grammar trained without a bound -/

/-- A syntactic rule of a grammar trained without a bound is that of a node over one other, or a
step of the chain of a node. -/
theorem exists_node_of_mem_syntactic (hlabels : ∀ t ∈ trees, t.AllLabels IsWord)
    (hclear : ∀ t ∈ trees, t.Clear) {s : Rule κ}
    (h : s ∈ (train .unbounded trees : Result κ).grammar.syntactic) :
    ∃ v ∈ nodes trees, isMarked v.label = false ∧ (∀ c ∈ v.children, Clear c.label) ∧
      ((∃ c, v.children = [c]) ∧ s.production = v.production ∨
        ∃ before taken after, v.children.map Tree.label = before ++ taken :: after ∧ after ≠ [] ∧
          s.production = step v.label before taken after) := by
  rw [grammar_train _ hlabels] at h
  obtain ⟨piece, hpiece, hlhs, hrhs⟩ := Grammar.exists_of_mem_syntactic h
  have hsyntactic : piece.lexical = false :=
    lexical_of_mem_syntactic h hpiece (Rule.key_eq_of_sides hlhs hrhs).symm
  have hproduction : s.production = piece.production := Rule.production_eq_of_sides hlhs hrhs
  obtain ⟨rule, hr, hpiece⟩ := List.mem_flatMap.1 hpiece
  have hlegible : rule.Legible := legible_of_mem_productions hlabels hclear hr
  obtain ⟨v, hv, hsame⟩ : ∃ v ∈ nodes trees, v.production = rule.production := by
    rw [← List.mem_map, ← map_production_productions (κ := κ)]
    exact List.mem_map_of_mem hr
  obtain ⟨hlabel, hsymbols⟩ := Prod.mk.inj hsame
  have hchildren : (∀ symbol ∈ rule.rhs.symbols, Clear symbol) →
      ∀ c ∈ v.children, Clear c.label :=
    fun hall c hc => hall c.label (hsymbols ▸ List.mem_map_of_mem hc)
  rw [hproduction]
  refine ⟨v, hv, hlabel ▸ hlegible.parent, ?_⟩
  by_cases hsize : 2 < rule.rhs.size
  · obtain ⟨before, taken, after, hsplit, hne, hstep⟩ :=
      (hlegible.mem_map_pieces hsize).1 (List.mem_map_of_mem hpiece)
    exact ⟨hchildren (hlegible.clear_of_size (Nat.le_of_lt hsize)),
      Or.inr ⟨before, taken, after, hsymbols.trans hsplit, hne, hlabel ▸ hstep⟩⟩
  · rw [pieces_of_size_le (Nat.le_of_not_lt hsize)] at hpiece
    obtain rfl : piece = rule := List.mem_singleton.1 hpiece
    refine ⟨hchildren (hlegible.children hsyntactic), ?_⟩
    have hlength : v.children.length = piece.rhs.size := by
      rw [Side.size, ← hsymbols, List.length_map]
    obtain ⟨hleaf, -⟩ := mem_nodes.1 hv
    rcases hc : v.children with _ | ⟨first, _ | ⟨last, _ | ⟨next, rest⟩⟩⟩
    · exact absurd (List.isEmpty_iff.2 hc) (Bool.eq_false_iff.1 hleaf)
    · exact Or.inl ⟨⟨first, rfl⟩, hsame.symm⟩
    · -- Two children are one step, the first of the chain and the last.
      refine Or.inr ⟨[], first.label, [last.label], rfl, List.cons_ne_nil _ _, ?_⟩
      rw [← hsame, Tree.production, hc]
      rfl
    · rw [hc, List.length_cons, List.length_cons, List.length_cons] at hlength
      omega

/-- The candidates of a tagger bear no mark if the fixed parts of speech bear none. -/
theorem isMarked_tag (hlabels : ∀ t ∈ trees, t.AllLabels IsWord) (hclear : ∀ t ∈ trees, t.Clear)
    {unknown : UnknownWords κ} (hcardinal : isMarked unknown.cardinalTag = false)
    (hproper : isMarked unknown.properNounTag = false) {word : String}
    {candidates : List (Candidate κ)}
    (h : (train m trees : Result κ).grammar.tag unknown word = .ok candidates)
    {candidate : Candidate κ} (hc : candidate ∈ candidates) : isMarked candidate.tag = false := by
  rcases exists_node_of_tag hlabels h hc with ⟨v, hv, htag⟩ | htag | htag
  · obtain ⟨hleaf, t, ht, -, hmem⟩ := mem_nodes.1 hv
    rw [← htag]
    exact (hclear t ht v hmem hleaf).isMarked
  · rw [htag]
    exact hcardinal
  · rw [htag]
    exact hproper

/-! ## Nodes with a witness -/

/-- A node that is accounted for: it has the production of a node of a training tree, or it is a
candidate of the tagger over its word. -/
inductive Attested (trees : List Tree) (g : Grammar κ) (unknown : UnknownWords κ) :
    Tree → Prop where
  /-- A production of the trees. -/
  | production {u v : Tree} (mem : v ∈ nodes trees) (same : v.production = u.production) :
      Attested trees g unknown u
  /-- A candidate of the tagger. -/
  | candidate {word : String} {candidates : List (Candidate κ)} {candidate : Candidate κ}
      (tagged : g.tag unknown word = .ok candidates) (mem : candidate ∈ candidates) :
      Attested trees g unknown (.node candidate.tag [.leaf word])

/-- A tree whose nodes are accounted for once introduced nodes have been removed. Its root may be
introduced itself. -/
structure Restored (trees : List Tree) (g : Grammar κ) (unknown : UnknownWords κ) (t : Tree) :
    Prop where
  /-- If the label is rewritten after some symbols, these and the restored children are what a node
  of the trees has below it. A candidate stands after no symbols. -/
  root : ∀ {parent : String} {before : List String}, isMarked parent = false →
    (∀ symbol ∈ before, Clear symbol) → t.label = rewritten parent before →
      (∃ v ∈ nodes trees,
        v.production = (parent, before ++ t.debinarize.children.map Tree.label)) ∨
      before = [] ∧ Attested trees g unknown t.debinarize
  /-- The nodes below the root. -/
  below : ∀ c ∈ t.debinarize.children, ∀ u ∈ c.nodes, u.isLeaf = false →
    Attested trees g unknown u

namespace Restored

variable {g : Grammar κ} {unknown : UnknownWords κ} {t : Tree}

/-- If the root bears no mark, it is accounted for as well. -/
theorem attested (h : Restored trees g unknown t) (hmark : isMarked t.label = false) :
    ∀ u ∈ t.debinarize.nodes, u.isLeaf = false → Attested trees g unknown u := by
  obtain ⟨label, children⟩ := t
  intro u hu hleaf
  rw [Tree.debinarize_node, Tree.mem_nodes_node] at hu
  rcases hu with rfl | ⟨c, hc, hu⟩
  · rcases h.root hmark (List.forall_mem_nil Clear) rfl with
      ⟨v, hv, hsame⟩ | ⟨-, hattested⟩
    · exact .production hv hsame
    · exact hattested
  · exact h.below c hc u hu hleaf

/-- What stands in the place of the tree is accounted for. -/
theorem attested_spliced (h : Restored trees g unknown t) (hleaf : t.isLeaf = false) :
    ∀ c ∈ t.debinarize.spliced, ∀ u ∈ c.nodes, u.isLeaf = false → Attested trees g unknown u := by
  intro c hc
  cases hmark : isMarked t.label with
  | false =>
    rw [Tree.spliced_of_unmarked (by rwa [Tree.label_debinarize])] at hc
    rw [List.mem_singleton.1 hc]
    exact h.attested hmark
  | true =>
    rw [Tree.spliced_of_marked (by rwa [Tree.isLeaf_debinarize])
      (by rwa [Tree.label_debinarize])] at hc
    exact h.below c hc

/-- Two trees under a step of the chain of a node of the training trees, the second restored: what
has been taken before and what is restored of them is all that a node of the trees has below it. -/
theorem exists_node_of_step {v : Tree} (hv : v ∈ nodes trees) (hmark : isMarked v.label = false)
    {first second : Tree} {before after : List String}
    (hclear : ∀ symbol ∈ before ++ first.label :: after, Clear symbol)
    (hsplit : v.children.map Tree.label = before ++ first.label :: after) (hne : after ≠ [])
    (hremaining : second.label = remaining v.label (before ++ [first.label]) after)
    (hleaf : second.isLeaf = false) (hsecond : Restored trees g unknown second) :
    ∃ w ∈ nodes trees, w.production =
      (v.label, before ++ (Tree.debinarizeAll [first, second]).map Tree.label) := by
  have hfirst : isMarked first.label = false := (hclear first.label (by simp)).isMarked
  have hall : (Tree.debinarizeAll [first, second]).map Tree.label =
      first.label :: second.debinarize.spliced.map Tree.label := by
    rw [Tree.debinarizeAll, Tree.spliced_of_unmarked (by rwa [Tree.label_debinarize])]
    simp [Tree.debinarizeAll]
  rw [hall]
  rcases after with _ | ⟨last, _ | ⟨next, rest⟩⟩
  · exact absurd rfl hne
  · -- The second tree stays as well, and the two end the production of the node.
    obtain rfl : second.label = last := hremaining
    have hlast : isMarked second.label = false := (hclear second.label (by simp)).isMarked
    refine ⟨v, hv, ?_⟩
    rw [Tree.production, hsplit, Tree.spliced_of_unmarked (by rwa [Tree.label_debinarize]),
      List.map_singleton, Tree.label_debinarize]
  · -- The second tree has an introduced root, and its children end a production.
    have hlabel : second.label = rewritten v.label (before ++ [first.label]) := by
      rw [rewritten_append_singleton]
      exact hremaining
    have hmarked : isMarked second.label = true := by
      rw [hlabel, rewritten_append_singleton, isMarked_introduced]
    rw [List.append_cons] at hclear
    rw [Tree.spliced_of_marked (by rwa [Tree.isLeaf_debinarize]) (by rwa [Tree.label_debinarize])]
    rcases hsecond.root hmark (fun s hs => hclear s (List.mem_append_left _ hs)) hlabel with
      ⟨w, hw, hsame⟩ | ⟨hnil, -⟩
    · rw [← List.append_cons] at hsame
      exact ⟨w, hw, hsame⟩
    · exact absurd hnil (by simp)

/-- What a rule over restored trees makes of its label, and of the symbols that have been taken for
the label before, is a production of the training trees. -/
theorem exists_node (hlabels : ∀ t ∈ trees, t.AllLabels IsWord) (hclear : ∀ t ∈ trees, t.Clear)
    {s : Rule κ} (hs : s ∈ (train .unbounded trees : Result κ).grammar.syntactic)
    {children : List Tree} {parent : String} {before : List String}
    (hparent : isMarked parent = false) (hbefore : ∀ symbol ∈ before, Clear symbol)
    (hproduction : s.production = (rewritten parent before, children.map Tree.label))
    (hchildren : ∀ c ∈ children, c.isLeaf = false ∧ Restored trees g unknown c) :
    ∃ v ∈ nodes trees,
      v.production = (parent, before ++ (Tree.debinarizeAll children).map Tree.label) := by
  obtain ⟨v, hv, hmark, hbelow, hrule⟩ := exists_node_of_mem_syntactic hlabels hclear hs
  have hsymbols : ∀ symbol ∈ v.children.map Tree.label, Clear symbol := by
    intro symbol hsymbol
    obtain ⟨c, hc, rfl⟩ := List.mem_map.1 hsymbol
    exact hbelow c hc
  rcases hrule with ⟨-, hnode⟩ | ⟨front, taken, after, hsplit, hne, hstep⟩
  · -- The rule is that of a node over one other, which stays.
    obtain ⟨hlabel, hsame⟩ := Prod.mk.inj (hproduction.symm.trans hnode)
    obtain rfl : before = [] := eq_nil_of_isMarked_rewritten (hlabel ▸ hmark)
    obtain rfl : parent = v.label := hlabel
    have hall : (Tree.debinarizeAll children).map Tree.label = children.map Tree.label :=
      Tree.map_label_debinarizeAll fun c hc =>
        (hsymbols c.label (hsame ▸ List.mem_map_of_mem hc)).isMarked
    refine ⟨v, hv, ?_⟩
    rw [hall, hsame]
    rfl
  · obtain ⟨hlabel, hsame⟩ := Prod.mk.inj (hproduction.symm.trans hstep)
    rw [hsplit] at hsymbols
    obtain ⟨rfl, rfl⟩ := rewritten_inj hparent hmark hbefore
      (fun s hs => hsymbols s (List.mem_append_left _ hs)) hlabel
    obtain ⟨first, second, rfl⟩ : ∃ first second, children = [first, second] := by
      rw [← List.length_eq_two, ← List.length_map Tree.label, hsame]
      rfl
    obtain ⟨rfl, hremaining⟩ : first.label = taken ∧ second.label = _ := by simpa using hsame
    obtain ⟨hleaf, hsecond⟩ := hchildren second (by simp)
    exact exists_node_of_step hv hmark hsymbols hsplit hne hremaining hleaf hsecond

/-- A rule over restored trees makes a restored tree. -/
theorem node (hlabels : ∀ t ∈ trees, t.AllLabels IsWord) (hclear : ∀ t ∈ trees, t.Clear)
    {s : Rule κ} (hs : s ∈ (train .unbounded trees : Result κ).grammar.syntactic) {label : String}
    {children : List Tree} (hproduction : s.production = (label, children.map Tree.label))
    (hchildren : ∀ c ∈ children, c.isLeaf = false ∧ Restored trees g unknown c) :
    Restored trees g unknown (.node label children) := by
  refine ⟨fun {parent before} hparent hbefore hlabel => Or.inl ?_, fun c hc => ?_⟩
  · obtain rfl : label = rewritten parent before := hlabel
    exact exists_node hlabels hclear hs hparent hbefore hproduction hchildren
  · rw [Tree.debinarize_node, Tree.children, Tree.debinarizeAll_eq_flatMap] at hc
    obtain ⟨child, hchild, hc⟩ := List.mem_flatMap.1 hc
    obtain ⟨hleaf, hrestored⟩ := hchildren child hchild
    exact hrestored.attested_spliced hleaf c hc

/-- What a grammar trained without a bound derives is restored. -/
theorem of_derives (hlabels : ∀ t ∈ trees, t.AllLabels IsWord) (hclear : ∀ t ∈ trees, t.Clear)
    (hcardinal : isMarked unknown.cardinalTag = false)
    (hproper : isMarked unknown.properNounTag = false) {cost : κ}
    (h : (train .unbounded trees : Result κ).grammar.Derives unknown t cost) :
    Restored trees (train .unbounded trees : Result κ).grammar unknown t := by
  have hproduction : ∀ {rule : Rule κ} {label : String} {symbols : List String},
      rule ∈ (RuleIndex.ofGrammar (train .unbounded trees : Result κ).grammar).rules →
      rule.label? = some label → rule.rhs.symbols = symbols →
      rule ∈ (train .unbounded trees : Result κ).grammar.syntactic ∧
        rule.production = (label, symbols) := by
    intro rule label symbols hr hl hsymbols
    have hmem := RuleIndex.mem_syntactic_of_mem_rules hr
    obtain ⟨symbol, hsymbol⟩ :=
      List.length_eq_one_iff.1 ((oneLeft_train (κ := κ) hlabels).syntactic rule hmem)
    rw [Rule.label?, hsymbol] at hl
    obtain rfl := Option.some.inj hl
    have hside : rule.lhs = Side.single symbol := congrArg Side.mk hsymbol
    refine ⟨hmem, ?_⟩
    rw [Rule.production, hside, Side.text_single, hsymbols]
  induction h with
  | @word text candidates candidate tagged mem =>
    have hmark := isMarked_tag hlabels hclear hcardinal hproper tagged mem
    refine ⟨fun {parent before} hparent hbefore hlabel => Or.inr ?_, fun c hc u hu hleaf => ?_⟩
    · have hlabel : candidate.tag = rewritten parent before := hlabel
      exact ⟨eq_nil_of_isMarked_rewritten (hlabel ▸ hmark), .candidate tagged mem⟩
    · -- There is only the word below a candidate.
      obtain rfl : c = .leaf text := List.mem_singleton.1 hc
      rcases Tree.mem_nodes_node.1 hu with rfl | ⟨d, hd, -⟩
      · exact Bool.noConfusion (show true = false from hleaf)
      · exact absurd hd List.not_mem_nil
  | unary numbered named rhs below ih =>
    obtain ⟨hmem, hsame⟩ := hproduction numbered named rhs
    refine .node hlabels hclear hmem hsame fun c hc => ?_
    obtain rfl := List.mem_singleton.1 hc
    exact ⟨below.isLeaf, ih⟩
  | binary numbered named rhs first second ihl ihr =>
    obtain ⟨hmem, hsame⟩ := hproduction numbered named rhs
    refine .node hlabels hclear hmem hsame fun c hc => ?_
    rcases List.mem_cons.1 hc with rfl | hc
    · exact ⟨first.isLeaf, ihl⟩
    · obtain rfl := List.mem_singleton.1 hc
      exact ⟨second.isLeaf, ihr⟩

end Restored

/-- A grammar trained without a bound does not generate productions of its own. In what a decoder
of it returns, every node below the top has the production of a node of a training tree once the
introduced nodes have been removed, or it is a candidate of the tagger over its word. -/
theorem attested_of_decode (hlabels : ∀ t ∈ trees, t.AllLabels IsWord)
    (hclear : ∀ t ∈ trees, t.Clear) {unknown : UnknownWords κ} {start top : String}
    (hstart : isMarked start = false) (hcardinal : isMarked unknown.cardinalTag = false)
    (hproper : isMarked unknown.properNounTag = false) {d : Decoder κ}
    (hd : Decoder.ofGrammar (train .unbounded trees).grammar unknown start top = .ok d)
    {words : List String} {r : Derivation κ} (hr : d.decode words = .ok r) :
    ∀ c ∈ r.tree.debinarize.children, ∀ u ∈ c.nodes, u.isLeaf = false →
      Attested trees (train .unbounded trees : Result κ).grammar unknown u := by
  obtain ⟨tagged, t, htag, htree, hderivation⟩ := Decoder.derivation?_of_decode hd hr
  obtain ⟨hparses, -⟩ := Decoder.reading_of_derivation? hd htag hderivation
  have hrestored := Restored.of_derives hlabels hclear hcardinal hproper hparses.derives
  have hmark : isMarked t.label = false := by rw [hparses.label, hstart]
  -- The start symbol stays below the top.
  have hbelow : r.tree.debinarize.children = [t.debinarize] := by
    rw [htree, Tree.debinarize_node, Tree.children, Tree.debinarizeAll, Tree.debinarizeAll,
      List.append_nil, Tree.spliced_of_unmarked (by rwa [Tree.label_debinarize])]
  intro c hc
  rw [hbelow] at hc
  rw [List.mem_singleton.1 hc]
  exact hrestored.attested hmark

/-- A tree with one adjective more than that of the old dog. -/
def bigOldDogTree : Tree :=
  .node "S"
    [.node "NP" [.node "DT" [.leaf "the"], .node "JJ" [.leaf "big"], .node "JJ" [.leaf "old"],
        .node "NN" [.leaf "dog"]],
      .node "VP" [.node "VB" [.leaf "barks"]]]

/-- The nodes of a sentence with an unknown word are accounted for. -/
theorem attested_of_decode_oldDogs :
    (∀ t ∈ [oldDogTree, bigOldDogTree], t.AllLabels IsWord) ∧
      (∀ t ∈ [oldDogTree, bigOldDogTree], t.Clear) ∧
      ∃ d r, Decoder.ofGrammar (train .unbounded [oldDogTree, bigOldDogTree]).grammar
          (.standard (⟨1⟩ : WholeCost)) "S" "TOP" = .ok d ∧
        d.decode ["the", "old", "big", "cat", "barks"] = .ok r ∧
        ∀ c ∈ r.tree.debinarize.children, ∀ u ∈ c.nodes, u.isLeaf = false →
          Attested [oldDogTree, bigOldDogTree]
            (train .unbounded [oldDogTree, bigOldDogTree]).grammar
            (.standard (⟨1⟩ : WholeCost)) u := by
  have hlabels : ∀ t ∈ [oldDogTree, bigOldDogTree], t.AllLabels IsWord := by decide +kernel
  have hclear : ∀ t ∈ [oldDogTree, bigOldDogTree], t.Clear := by decide +kernel
  let g : Grammar WholeCost := (train .unbounded [oldDogTree, bigOldDogTree]).grammar
  have hsmoothing : g.smoothing ≠ [] := by decide +kernel
  obtain ⟨d, hd⟩ := Decoder.exists_ofGrammar_eq_ok hsmoothing (.standard ⟨1⟩) "S" "TOP"
  obtain rfl := Decoder.eq_of_ofGrammar hd
  have hdecode : (Decoder.mk g (.ofGrammar g) (.standard ⟨1⟩) "S" "TOP").decode
      ["the", "old", "big", "cat", "barks"] = .ok ⟨.node "TOP" [.node "S"
        [.node "NP" [.node "DT" [.leaf "the"], .node "[DT]@NP" [.node "JJ" [.leaf "old"],
          .node "[DT,JJ]@NP" [.node "JJ" [.leaf "big"], .node "NN" [.leaf "cat"]]]],
          .node "VP" [.node "VB" [.leaf "barks"]]]], ⟨8⟩⟩ := by decide +kernel
  have hstart : isMarked "S" = false := by decide
  have hcardinal : isMarked (UnknownWords.standard (⟨1⟩ : WholeCost)).cardinalTag = false := by
    decide
  have hproper : isMarked (UnknownWords.standard (⟨1⟩ : WholeCost)).properNounTag = false := by
    decide
  have hattested := attested_of_decode hlabels hclear hstart hcardinal hproper hd hdecode
  exact ⟨hlabels, hclear, _, _, hd, hdecode, hattested⟩

end Training

end Constituency
