import Constituency.Proofs.Cost
import Constituency.Proofs.Decoding.Completeness
import Constituency.Proofs.Training
import Constituency.Proofs.Tree.Reader

/-!
# A trained grammar decodes its treebank

A node of a training tree is covered by its label over the words below it: a part of speech by the
lexicon, a category by the chain of its rule over what its children cover. Therefore a grammar
trained on a treebank decodes every sentence of it in whose tree the start symbol stands over all
words (`Training.decode_train`).

One thing may prevent it. A rule that occurred both over a word and over a category is taken for a
lexical rule, and then the category is no longer rewritten by it.
-/

namespace Constituency

open Text (IsWord)

variable {κ : Type} [Cost κ]

namespace Grammar

/-! ## Chains -/

/-- Symbols that cover a part of a sentence one after the other. -/
inductive CoversAll (g : Grammar κ) (unknown : UnknownWords κ) (words : List String) :
    Nat → Nat → List String → Prop where
  /-- No symbols cover no words. -/
  | nil {place : Nat} : CoversAll g unknown words place place []
  /-- One more symbol before others. -/
  | cons {symbol : String} {symbols : List String} {start middle stop : Nat}
      (first : g.Covers unknown words start middle symbol)
      (rest : CoversAll g unknown words middle stop symbols) :
      CoversAll g unknown words start stop (symbol :: symbols)

/-- The one symbol of a list covers what the list does. -/
theorem CoversAll.single {g : Grammar κ} {unknown : UnknownWords κ} {words : List String}
    {start stop : Nat} {symbol : String} (h : g.CoversAll unknown words start stop [symbol]) :
    g.Covers unknown words start stop symbol := by
  cases h with
  | cons first rest =>
    cases rest with
    | nil => exact first

/-- A grammar has a syntactic rule with the sides of a given one. -/
def HasSides (g : Grammar κ) (rule : Rule κ) : Prop :=
  ∃ s ∈ g.syntactic, s.lhs = rule.lhs ∧ s.rhs = rule.rhs

variable {g : Grammar κ} {unknown : UnknownWords κ} {words : List String} {m : Markovization}

/-- If a grammar has the rules of a chain, the symbol that the chain rewrites covers what the
symbols on the right do. -/
theorem CoversAll.covers_of_links {parent label symbol : String} {window rest : List String}
    {start stop : Nat} (h : g.CoversAll unknown words start stop (symbol :: rest)) (hne : rest ≠ [])
    (hlinks : ∀ link ∈ m.links parent (Side.single label) window symbol rest, g.HasSides link) :
    g.Covers unknown words start stop label := by
  induction rest generalizing label window symbol start with
  | nil => exact absurd rfl hne
  | cons next rest ih =>
    cases h with
    | cons first others =>
      cases rest with
      | nil =>
        obtain ⟨s, hs, hlhs, hrhs⟩ := hlinks _ List.mem_cons_self
        have hsymbols := congrArg Side.symbols hrhs
        exact .binary hs (congrArg Side.symbols hlhs) hsymbols first others.single
      | cons last rest =>
        obtain ⟨s, hs, hlhs, hrhs⟩ := hlinks _ List.mem_cons_self
        -- The introduced symbol covers what is left, by the rest of the chain.
        have hrest := ih others (List.cons_ne_nil _ _) fun link hlink =>
          hlinks link (List.mem_cons_of_mem _ hlink)
        exact .binary hs (congrArg Side.symbols hlhs) (congrArg Side.symbols hrhs) first hrest

/-- If a grammar has the pieces of a rule, its left-hand symbol covers what those on the right
do. -/
theorem CoversAll.covers_of_pieces {rule : Rule κ} {label : String} {start stop : Nat}
    (h : g.CoversAll unknown words start stop rule.rhs.symbols)
    (hlhs : rule.lhs = Side.single label) (hne : rule.rhs.symbols ≠ [])
    (hpieces : ∀ piece ∈ m.pieces rule, g.HasSides piece) :
    g.Covers unknown words start stop label := by
  obtain ⟨lhs, ⟨symbols⟩, cost, lexical, top⟩ := rule
  dsimp only at h hlhs hne
  subst hlhs
  match symbols, h, hne with
  | [], _, hne => exact absurd rfl hne
  | [_], h, _ =>
    obtain ⟨s, hs, hl, hr⟩ := hpieces _ List.mem_cons_self
    exact .unary hs (congrArg Side.symbols hl) (congrArg Side.symbols hr) h.single
  | [_, _], .cons first rest, _ =>
    obtain ⟨s, hs, hl, hr⟩ := hpieces _ List.mem_cons_self
    exact .binary hs (congrArg Side.symbols hl) (congrArg Side.symbols hr) first rest.single
  | symbol :: next :: last :: rest, h, _ =>
    -- The first rule of the chain bears the mark of the root, which changes no side.
    have hlinks : ∀ link ∈ (m.links (Side.single label).text (Side.single label) m.emptyWindow
        symbol (next :: last :: rest) : List (Rule κ)), g.HasSides link := by
      intro link hlink
      obtain ⟨piece, hpiece, hl, hr⟩ := Markovization.exists_mem_withTop top hlink
      obtain ⟨s, hs, hsl, hsr⟩ := hpieces piece hpiece
      exact ⟨s, hs, hsl.trans hl, hsr.trans hr⟩
    exact h.covers_of_links (List.cons_ne_nil _ _) hlinks

/-! ## Trees -/

/-- A grammar has the rule of a node: a lexical one among the rules of the word, any other one in
pieces among the syntactic rules. -/
structure HasRule (g : Grammar κ) (m : Markovization) (rule : Rule κ) : Prop where
  /-- A lexical rule. -/
  lexical : rule.lexical = true → ∃ found, g.lexicon.find? rule.rhs.text = some found ∧
    ∃ s ∈ found, s.lhs = rule.lhs ∧ s.rhs = rule.rhs
  /-- Any other rule. -/
  syntactic : rule.lexical = false → ∀ piece ∈ m.pieces rule, g.HasSides piece

/-- What covers the words of trees one after the other covers those of all of them. -/
theorem coversAll_of_covers {ts : List Tree} {before after : List String}
    (hwords : words = before ++ Tree.wordsOfAll ts ++ after)
    (h : ∀ t ∈ ts, ∀ before after, words = before ++ t.words ++ after →
      g.Covers unknown words before.length (before ++ t.words).length t.label) :
    g.CoversAll unknown words before.length (before ++ Tree.wordsOfAll ts).length
      (ts.map Tree.label) := by
  induction ts generalizing before with
  | nil =>
    rw [Tree.wordsOfAll, List.append_nil]
    exact .nil
  | cons t rest ih =>
    rw [Tree.wordsOfAll, ← List.append_assoc] at hwords ⊢
    refine .cons (h t List.mem_cons_self before (Tree.wordsOfAll rest ++ after) ?_) (ih hwords ?_)
    · rw [hwords, List.append_assoc]
    · exact fun u hu => h u (List.mem_cons_of_mem t hu)

/-- If a grammar has the rules of a tree of the right shape, the label of the tree covers its
words. -/
theorem covers_of_shaped (hone : g.OneLeft) {t : Tree} (ht : t.Shaped)
    (hrules : ∀ u : Tree, u.Subtree t → u.isLeaf = false →
      ∃ mark, g.HasRule m (Tree.ruleAt mark u : Rule κ))
    {before after : List String} (hwords : words = before ++ t.words ++ after) :
    g.Covers unknown words before.length (before ++ t.words).length t.label := by
  obtain ⟨mark, hroot⟩ := hrules t (.refl t) ht.isLeaf
  induction ht generalizing before after mark with
  | @preTerminal tag word =>
    obtain ⟨found, hfound, s, hs, hlhs, -⟩ := hroot.lexical rfl
    rw [show (Tree.ruleAt mark (.node tag [.leaf word]) : Rule κ).rhs.text = word from
      Side.text_single word] at hfound
    obtain ⟨candidates, htag, c, hc, rfl⟩ := hone.exists_candidate unknown hfound hs hlhs
    have here : words[before.length]? = some word := by
      rw [hwords, Tree.words_unary, Tree.words_leaf, List.append_assoc,
        List.getElem?_append_right (Nat.le_refl _), Nat.sub_self]
      rfl
    rw [Tree.words_unary, Tree.words_leaf, List.length_append]
    exact .word here htag hc
  | @internal label children ne below ih =>
    -- No child is a word, so the rule of the node is not a lexical one.
    have hsyntactic : (Tree.node label children).isPreTerminal = false := by
      rcases children with _ | ⟨child, _ | ⟨other, rest⟩⟩
      · rfl
      · exact (below child List.mem_cons_self).isLeaf
      · rfl
    have hall : g.CoversAll unknown words before.length
        (before ++ Tree.wordsOfAll children).length
        (Tree.ruleAt mark (.node label children) : Rule κ).rhs.symbols := by
      rw [Tree.words_node ne] at hwords
      refine coversAll_of_covers hwords fun c hc before after hc' => ?_
      have hchild : c.Subtree (.node label children) := .child hc (.refl c)
      obtain ⟨mark, hrule⟩ := hrules c hchild (below c hc).isLeaf
      exact ih c hc (fun u hu => hrules u (hu.trans hchild)) hc' mark hrule
    rw [Tree.words_node ne]
    have hne : children.map Tree.label ≠ [] := fun h => ne (List.map_eq_nil_iff.1 h)
    exact hall.covers_of_pieces rfl hne (hroot.syntactic hsyntactic)

end Grammar

/-! ## Trained grammars -/

namespace Training

open Grammar

variable {m : Markovization} {trees : List Tree}

/-- The pieces of the productions are proper if labels are words. -/
theorem proper_of_mem_pieces (hlabels : ∀ t ∈ trees, t.AllLabels IsWord) :
    ∀ piece ∈ (productions trees).flatMap (m.pieces (κ := κ)), piece.Proper :=
  fun _ hpiece => Markovization.proper_of_mem_flatMap_pieces
    (fun _ hrule => proper_of_mem_productions hlabels hrule) hpiece

/-- The rules of a trained grammar have one symbol on the left. -/
theorem oneLeft_train (hlabels : ∀ t ∈ trees, t.AllLabels IsWord) :
    (train m trees : Result κ).grammar.OneLeft := by
  rw [grammar_train m hlabels]
  constructor
  · intro s hs
    obtain ⟨rule, hrule, hlhs, -⟩ := exists_of_mem_syntactic hs
    exact hlhs ▸ (proper_of_mem_pieces hlabels rule hrule).single
  · intro word found hfound s hs
    obtain ⟨rule, hrule, hlhs, -⟩ := exists_of_find?_lexicon hfound hs
    exact hlhs ▸ (proper_of_mem_pieces hlabels rule hrule).single

/-- The symbols of a trained grammar are words. -/
theorem plainSymbols_train (hlabels : ∀ t ∈ trees, t.AllLabels IsWord) :
    (train m trees : Result κ).grammar.PlainSymbols := by
  rw [grammar_train m hlabels]
  intro s hs
  obtain ⟨rule, hrule, hlhs, hrhs⟩ := exists_of_mem_syntactic hs
  have hplain := (proper_of_mem_pieces hlabels rule hrule).toPlain
  exact ⟨hlhs ▸ hplain.lhs, hrhs ▸ hplain.rhs⟩

/-- A grammar trained on unmixed productions has the rule of each of them. -/
theorem hasRule_train (hlabels : ∀ t ∈ trees, t.AllLabels IsWord)
    (hunmixed : Rule.Unmixed (productions trees : List (Rule κ))) {rule : Rule κ}
    (h : rule ∈ productions trees) : (train m trees : Result κ).grammar.HasRule m rule := by
  rw [grammar_train m hlabels]
  have hproper := proper_of_mem_pieces (κ := κ) (m := m) hlabels
  have hplain := fun piece hpiece => (hproper piece hpiece).toPlain
  constructor
  · intro hlexical
    have hsize : rule.rhs.size ≤ 2 := by
      rw [Side.size, (proper_of_mem_productions hlabels h).lexical hlexical]
      decide
    have hself : rule ∈ m.pieces rule := by
      rw [Markovization.pieces, if_pos hsize]
      exact List.mem_singleton_self rule
    exact exists_find?_lexicon hplain (List.mem_flatMap.2 ⟨rule, h, hself⟩) hlexical
  · intro hsyntactic piece hpiece
    have hmark : piece.lexical = false := by
      rcases Markovization.eq_or_isLink_of_mem_pieces hpiece with rfl | hlink
      · exact hsyntactic
      · exact hlink.lexical
    exact exists_mem_syntactic hplain
      (Markovization.unmixed_pieces (fun _ => proper_of_mem_productions hlabels) hunmixed)
      (List.mem_flatMap.2 ⟨rule, h, hpiece⟩) hmark

/-- A grammar trained on a tree of the right shape has parts of speech for unknown words. -/
theorem smoothing_train_ne_nil (hlabels : ∀ t ∈ trees, t.AllLabels IsWord) {t : Tree}
    (ht : t ∈ trees) (hvalid : t.validate = .ok ()) :
    (train m trees : Result κ).grammar.smoothing ≠ [] := by
  rw [grammar_train m hlabels]
  obtain ⟨tag, word, hsub⟩ := (Tree.shaped_of_validate hvalid).exists_preTerminal
  obtain ⟨mark, hrule⟩ := hsub.ruleAt_mem (κ := κ) rfl true
  have hproduction := mem_productions.2 ⟨t, ht, hvalid, hrule⟩
  have hpiece : Tree.ruleAt mark (.node tag [.leaf word]) ∈
      (productions trees).flatMap (m.pieces (κ := κ)) :=
    List.mem_flatMap.2 ⟨_, hproduction, List.mem_singleton_self _⟩
  exact smoothing_estimate_ne_nil (proper_of_mem_pieces hlabels) hpiece rfl

/-- A decoder of a grammar trained on unmixed productions decodes the words of a training tree over
all of which the start symbol stands. -/
theorem exists_decode_of_subtree (hlabels : ∀ t ∈ trees, t.AllLabels IsWord)
    (hunmixed : Rule.Unmixed (productions trees : List (Rule κ))) {unknown : UnknownWords κ}
    {start top : String} {d : Decoder κ}
    (hd : Decoder.ofGrammar (train m trees).grammar unknown start top = .ok d) {t u : Tree}
    (ht : t ∈ trees) (hvalid : t.validate = .ok ()) (hu : u.Subtree t) (hleaf : u.isLeaf = false)
    (hlabel : u.label = start) (hwords : u.words = t.words) :
    ∃ derivation, d.decode t.words = .ok derivation := by
  have hone := oneLeft_train (κ := κ) (m := m) hlabels
  -- Every node below the start symbol is a node of the tree, so its rule is a production.
  have hrules : ∀ v : Tree, v.Subtree u → v.isLeaf = false →
      ∃ mark, (train m trees : Result κ).grammar.HasRule m (Tree.ruleAt mark v) := by
    intro v hv hvleaf
    obtain ⟨mark, hrule⟩ := (hv.trans hu).ruleAt_mem (κ := κ) hvleaf true
    have hproduction := mem_productions.2 ⟨t, ht, hvalid, hrule⟩
    exact ⟨mark, hasRule_train hlabels hunmixed hproduction⟩
  have hcovers :
      (train m trees : Result κ).grammar.Covers unknown t.words 0 t.words.length start := by
    have hshaped := (Tree.shaped_of_validate hvalid).subtree hu hleaf
    have h : (train m trees : Result κ).grammar.Covers unknown t.words ([] : List String).length
        ([] ++ u.words).length u.label :=
      covers_of_shaped hone hshaped hrules (by rw [hwords, List.append_nil]; rfl)
    rw [List.nil_append, hwords, hlabel] at h
    exact h
  have hpos : 0 < t.words.length := List.length_pos_iff.2 t.words_ne_nil
  let whole : Span t.words.length := ⟨0, t.words.length, hpos, Nat.le_refl _⟩
  obtain ⟨parse, cost, hroot, hderives, hparse⟩ :=
    hcovers.exists_derives (plainSymbols_train hlabels) rfl (s := whole) rfl rfl
  rw [Span.pick_whole rfl rfl rfl] at hparse
  obtain ⟨tagged, htag⟩ := Decoder.exists_tagged_of_oneLeft hd hone t.words
  obtain ⟨best, least, -, hdecode⟩ :=
    Decoder.exists_decode_eq_ok hd hone.syntactic htag ⟨hroot, hparse, hderives⟩
  exact ⟨_, hdecode⟩

/-- A grammar that has been trained on a treebank with a tree of the right shape can be used for
decoding, and if its productions are unmixed it decodes every sentence of the treebank in whose tree
the start symbol stands over all words. -/
theorem decode_train (text : String) (m : Markovization) (unknown : UnknownWords κ)
    (start top : String)
    (hvalid : ∃ t ∈ (Treebank.read text).trees, t.validate = .ok ()) :
    ∃ d, Decoder.ofGrammar (train m (Treebank.read text).trees).grammar unknown start top = .ok d ∧
      (Rule.Unmixed (productions (Treebank.read text).trees : List (Rule κ)) →
        ∀ t ∈ (Treebank.read text).trees, t.validate = .ok () →
          ∀ u : Tree, u.Subtree t → u.isLeaf = false → u.label = start → u.words = t.words →
            ∃ derivation, d.decode t.words = .ok derivation) := by
  have hlabels : ∀ t ∈ (Treebank.read text).trees, t.AllLabels IsWord :=
    fun t => Treebank.allLabels_of_mem_trees
  obtain ⟨t, ht, hshape⟩ := hvalid
  obtain ⟨d, hd⟩ := Decoder.exists_ofGrammar_eq_ok
    (smoothing_train_ne_nil (κ := κ) (m := m) hlabels ht hshape) unknown start top
  refine ⟨d, hd, fun hunmixed t ht hshape u hu hleaf hlabel hwords => ?_⟩
  exact exists_decode_of_subtree hlabels hunmixed hd ht hshape hu hleaf hlabel hwords

/-- A treebank of one tree, in which a node stands over three others. -/
def oldDog : String := "(S (NP (DT the) (JJ old) (NN dog)) (VP (VB barks)))"

/-- Its tree. -/
def oldDogTree : Tree :=
  .node "S"
    [.node "NP" [.node "DT" [.leaf "the"], .node "JJ" [.leaf "old"], .node "NN" [.leaf "dog"]],
      .node "VP" [.node "VB" [.leaf "barks"]]]

/-- A grammar trained on that treebank decodes its sentence. -/
theorem decode_train_oldDog :
    (Treebank.read oldDog).trees = [oldDogTree] ∧
      Rule.Unmixed (productions [oldDogTree] : List (Rule WholeCost)) ∧
      ∃ d, Decoder.ofGrammar (train (.order 1) [oldDogTree]).grammar (.standard ⟨1⟩) "S" "TOP" =
          .ok d ∧
        ∃ derivation : Derivation WholeCost,
          d.decode ["the", "old", "dog", "barks"] = .ok derivation := by
  have hread : (Treebank.read oldDog).trees = [oldDogTree] := by decide +kernel
  have hunmixed : Rule.Unmixed (productions [oldDogTree] : List (Rule WholeCost)) := by decide
  have hvalid : oldDogTree.validate = .ok () := rfl
  have hmem : oldDogTree ∈ (Treebank.read oldDog).trees := by
    rw [hread]
    exact List.mem_cons_self
  obtain ⟨d, hd, hdecode⟩ := decode_train oldDog (.order 1) (.standard (⟨1⟩ : WholeCost)) "S" "TOP"
    ⟨oldDogTree, hmem, hvalid⟩
  rw [hread] at hd hdecode
  have hsentence := hdecode hunmixed oldDogTree List.mem_cons_self hvalid oldDogTree (.refl _) rfl
    rfl rfl
  exact ⟨hread, hunmixed, d, hd, hsentence⟩

end Training

end Constituency
