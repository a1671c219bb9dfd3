import Constituency.Proofs.Binarization
import Constituency.Proofs.Grammar.Estimation
import Constituency.Proofs.Tree.Nodes
import Constituency.Proofs.UnboundedChain
import Constituency.Training

/-!
# What a training run counts

The productions of a list of trees are the rules of those that are used. A run counts what its
binarizer makes of the productions (`Binarizer.counted`). If all labels are words, these are the
pieces of the productions, in order, whatever the binarizer has done before
(`Binarizer.Keeps.train`). The productions are those of the nodes that are no words
(`map_production_productions`), and they are legible if the categories of the trees are clear.
-/

namespace Constituency

open Text (IsWord)

variable {κ : Type} [Cost κ]

namespace Tree

/-- The rules of a tree if it is used for training, none if it is left out. -/
def productions (t : Tree) : List (Rule κ) :=
  match (t.rules : Except ShapeError (List (Rule κ))) with
  | .ok rules => rules
  | .error _ => []

/-- A tree is used exactly if it passes the check. -/
theorem rules_eq_ok_iff {t : Tree} {rules : List (Rule κ)} :
    t.rules = .ok rules ↔ t.validate = .ok () ∧ rules = t.rulesFrom true := by
  unfold Tree.rules
  cases t.validate with
  | error error => exact ⟨nofun, fun h => absurd h.1 nofun⟩
  | ok checked =>
    constructor
    · intro h
      exact ⟨rfl, (Except.ok.inj h).symm⟩
    · rintro ⟨-, rfl⟩
      rfl

/-- The productions of a tree are its rules if it passes the check. -/
theorem productions_eq (t : Tree) :
    (t.productions : List (Rule κ)) = if t.validate.isOk then t.rulesFrom true else [] := by
  unfold productions rules
  cases t.validate with
  | error error => rfl
  | ok checked => rfl

/-- The productions of a tree that passes the check are its rules. -/
theorem mem_productions {t : Tree} {rule : Rule κ} :
    rule ∈ t.productions ↔ t.validate = .ok () ∧ rule ∈ t.rulesFrom true := by
  unfold productions
  cases hrules : (t.rules : Except ShapeError (List (Rule κ))) with
  | error error =>
    refine ⟨fun h => absurd h List.not_mem_nil, fun h => ?_⟩
    rw [rules_eq_ok_iff.2 ⟨h.1, rfl⟩] at hrules
    exact absurd hrules nofun
  | ok rules =>
    obtain ⟨hvalid, rfl⟩ := rules_eq_ok_iff.1 hrules
    exact ⟨fun h => ⟨hvalid, h⟩, fun h => h.2⟩

/-- The rule of a node that is no word is proper if labels are words. -/
theorem proper_ruleAt {t : Tree} (hlabels : t.AllLabels IsWord) (mark : Bool) :
    (ruleAt mark t : Rule κ).Proper := by
  obtain ⟨label, children⟩ := t
  refine ⟨⟨fun symbol hs => ?_, fun symbol hs => ?_⟩, rfl, fun hl => ?_⟩
  · exact List.mem_singleton.1 hs ▸ hlabels.root
  · obtain ⟨c, hc, rfl⟩ := List.mem_map.1 hs
    exact (hlabels.subtree (.child hc (.refl c))).root
  · rcases children with _ | ⟨child, _ | ⟨other, rest⟩⟩
    · exact absurd hl nofun
    · rfl
    · exact absurd hl nofun

/-- The productions of a tree whose labels are words are proper. -/
theorem proper_of_mem_productions {t : Tree} (hlabels : t.AllLabels IsWord) {rule : Rule κ}
    (h : rule ∈ t.productions) : rule.Proper := by
  obtain ⟨u, mark, hu, -, rfl⟩ := exists_of_mem_rulesFrom (mem_productions.1 h).2
  exact proper_ruleAt (hlabels.subtree hu) mark

/-- The categories of a tree, its labels but for the words, can be told in chains. -/
def Clear (t : Tree) : Prop := ∀ u ∈ t.nodes, u.isLeaf = false → Markovization.Clear u.label

instance (t : Tree) : Decidable t.Clear := inferInstanceAs (Decidable (∀ u ∈ t.nodes, _ → _))

/-- The rule of a node is legible if labels are words and categories are clear. -/
theorem legible_ruleAt {t : Tree} (ht : t.Shaped) (hlabels : t.AllLabels IsWord) (hclear : t.Clear)
    (mark : Bool) : (ruleAt mark t : Rule κ).Legible := by
  have hparent : Markovization.isMarked (ruleAt mark t : Rule κ).lhs.text = false := by
    rw [ruleAt, Side.text_single]
    exact (hclear t (self_mem_nodes t) ht.isLeaf).isMarked
  refine ⟨proper_ruleAt hlabels mark, hparent, fun hlexical symbol hs => ?_⟩
  obtain ⟨c, hc, rfl⟩ := List.mem_map.1 hs
  cases ht with
  | preTerminal => exact Bool.noConfusion (show true = false from hlexical)
  | @internal label children _ below =>
    -- No child is a word, so its label is a category.
    have hmem : c ∈ (node label children).nodes :=
      mem_nodes_node.2 (Or.inr ⟨c, hc, self_mem_nodes c⟩)
    exact hclear c hmem (below c hc).isLeaf

/-- What stands in a tree with clear categories has such too. -/
theorem Clear.subtree {t u : Tree} (h : t.Clear) (hu : u.Subtree t) : u.Clear :=
  fun v hv => h v (Tree.mem_nodes.2 ((Tree.mem_nodes.1 hv).trans hu))

/-- The productions of a tree with clear categories are legible. -/
theorem legible_of_mem_productions {t : Tree} (hlabels : t.AllLabels IsWord) (hclear : t.Clear)
    {rule : Rule κ} (h : rule ∈ t.productions) : rule.Legible := by
  obtain ⟨hvalid, hrule⟩ := mem_productions.1 h
  obtain ⟨u, mark, hu, hleaf, rfl⟩ := exists_of_mem_rulesFrom hrule
  exact legible_ruleAt ((shaped_of_validate hvalid).subtree hu hleaf) (hlabels.subtree hu)
    (hclear.subtree hu) mark

end Tree

namespace Training

/-- The productions of a list of trees, one tree after the other. -/
def productions (trees : List Tree) : List (Rule κ) := trees.flatMap Tree.productions

/-- The productions of a list of trees are the rules of those that pass the check. -/
theorem productions_eq_flatMap (trees : List Tree) :
    (productions trees : List (Rule κ)) =
      (trees.filter (·.validate.isOk)).flatMap (Tree.rulesFrom true) := by
  induction trees with
  | nil => rfl
  | cons t rest ih =>
    have hcons : (productions (t :: rest) : List (Rule κ)) = t.productions ++ productions rest :=
      List.flatMap_cons
    rw [hcons, ih, Tree.productions_eq, List.filter_cons]
    split
    · rw [List.flatMap_cons]
    · rw [List.nil_append]

/-- A production of a list of trees is a rule of a tree that passes the check. -/
theorem mem_productions {trees : List Tree} {rule : Rule κ} :
    rule ∈ productions trees ↔
      ∃ t ∈ trees, t.validate = .ok () ∧ rule ∈ t.rulesFrom true := by
  rw [productions, List.mem_flatMap]
  simp only [Tree.mem_productions]

/-- A production has symbols on the right. -/
theorem size_pos_of_mem_productions {trees : List Tree} {rule : Rule κ}
    (h : rule ∈ productions trees) : 0 < rule.rhs.size := by
  obtain ⟨t, -, -, hrule⟩ := mem_productions.1 h
  obtain ⟨u, mark, -, hleaf, rfl⟩ := Tree.exists_of_mem_rulesFrom hrule
  have hne : u.children ≠ [] := List.isEmpty_eq_false_iff.1 hleaf
  rw [Side.size, Tree.ruleAt, List.length_map]
  exact List.length_pos_iff.2 hne

/-- The productions of trees whose labels are words are proper. -/
theorem proper_of_mem_productions {trees : List Tree}
    (hlabels : ∀ t ∈ trees, t.AllLabels IsWord) {rule : Rule κ} (h : rule ∈ productions trees) :
    rule.Proper := by
  obtain ⟨t, ht, hrule⟩ := List.mem_flatMap.1 h
  exact Tree.proper_of_mem_productions (hlabels t ht) hrule

/-- The productions of trees with clear categories are legible. -/
theorem legible_of_mem_productions {trees : List Tree}
    (hlabels : ∀ t ∈ trees, t.AllLabels IsWord) (hclear : ∀ t ∈ trees, t.Clear) {rule : Rule κ}
    (h : rule ∈ productions trees) : rule.Legible := by
  obtain ⟨t, ht, hrule⟩ := List.mem_flatMap.1 h
  exact Tree.legible_of_mem_productions (hlabels t ht) (hclear t ht) hrule

/-- The nodes that are no words, of the trees that are used. -/
def nodes (trees : List Tree) : List Tree :=
  (trees.filter (·.validate.isOk)).flatMap fun t => t.nodes.filter fun u => !u.isLeaf

/-- The nodes of the trees that are used. -/
theorem mem_nodes {trees : List Tree} {u : Tree} :
    u ∈ nodes trees ↔ u.isLeaf = false ∧ ∃ t ∈ trees, t.validate = .ok () ∧ u ∈ t.nodes := by
  have hok : ∀ t : Tree, t.validate.isOk = true ↔ t.validate = .ok () := by
    intro t
    cases t.validate with
    | error error => exact ⟨nofun, nofun⟩
    | ok checked => exact ⟨fun _ => rfl, fun _ => rfl⟩
  simp only [nodes, List.mem_flatMap, List.mem_filter, hok, Bool.not_eq_true']
  constructor
  · rintro ⟨t, ⟨ht, hvalid⟩, hu, hleaf⟩
    exact ⟨hleaf, t, ht, hvalid, hu⟩
  · rintro ⟨hleaf, t, ht, hvalid, hu⟩
    exact ⟨t, ⟨ht, hvalid⟩, hu, hleaf⟩

/-- A production of a list of trees is the rule of a node. -/
theorem exists_node_of_mem_productions {trees : List Tree} {rule : Rule κ}
    (h : rule ∈ productions trees) : ∃ u ∈ nodes trees, ∃ mark, rule = u.ruleAt mark := by
  obtain ⟨t, ht, hvalid, hrule⟩ := mem_productions.1 h
  obtain ⟨u, mark, hsub, hleaf, rfl⟩ := Tree.exists_of_mem_rulesFrom hrule
  exact ⟨u, mem_nodes.2 ⟨hleaf, t, ht, hvalid, Tree.mem_nodes.2 hsub⟩, mark, rfl⟩

/-- The rules that are counted, before they are binarized, are the productions of the nodes. -/
theorem map_production_productions (trees : List Tree) :
    (productions trees : List (Rule κ)).map Rule.production =
      (nodes trees).map Tree.production := by
  induction trees with
  | nil => rfl
  | cons t rest ih =>
    have hcons : nodes (t :: rest) =
        (if t.validate.isOk then t.nodes.filter fun u => !u.isLeaf else []) ++ nodes rest := by
      rw [nodes, List.filter_cons]
      cases t.validate.isOk <;> rfl
    have hfirst : (t.productions : List (Rule κ)).map Rule.production =
        (if t.validate.isOk then t.nodes.filter fun u => !u.isLeaf else []).map
          Tree.production := by
      unfold Tree.productions Tree.rules
      cases t.validate with
      | error error => rfl
      | ok checked => exact Tree.map_production_rulesFrom true t
    rw [productions, List.flatMap_cons, List.map_append, hcons, List.map_append, ← ih, hfirst]
    rfl

end Training

open Training (productions)

/-! ## Any binarizer and any labels -/

/-- The rules that a training run counts, in order. -/
def Binarizer.counted (b : Binarizer κ) : List Tree → List (Rule κ)
  | [] => []
  | t :: rest =>
    let (after, binary) := b.binarizeAll t.productions
    binary ++ after.counted rest

/-- Taking a tree counts what the binarizer makes of its productions. -/
theorem Training.Progress.take_spec (p : Training.Progress κ) (tree : Tree × Nat) :
    (p.take tree).binarizer = (p.binarizer.binarizeAll tree.1.productions).1 ∧
      (p.take tree).grammar =
        p.grammar.countAll (p.binarizer.binarizeAll tree.1.productions).2 := by
  unfold Progress.take Tree.productions
  cases (tree.1.rules : Except Tree.ShapeError (List (Rule κ))) with
  | error error => exact ⟨rfl, rfl⟩
  | ok rules => exact ⟨rfl, rfl⟩

/-- Taking trees one after the other counts what the binarizer makes of their productions. -/
theorem Training.Progress.grammar_foldl_take (p : Training.Progress κ) (trees : List Tree)
    (place : Nat) :
    ((trees.zipIdx place).foldl Progress.take p).grammar =
      p.grammar.countAll (p.binarizer.counted trees) := by
  induction trees generalizing p place with
  | nil => rfl
  | cons t rest ih =>
    obtain ⟨hbinarizer, hgrammar⟩ := p.take_spec (t, place)
    rw [List.zipIdx_cons, List.foldl_cons, ih, hbinarizer, hgrammar, Binarizer.counted,
      Grammar.countAll_append]

/-- A training run estimates what it counts. -/
theorem Binarizer.grammar_train_eq (b : Binarizer κ) (trees : List Tree) :
    (b.train trees).grammar = (Grammar.empty.countAll (b.counted trees)).estimate :=
  congrArg Grammar.estimate (Training.Progress.grammar_foldl_take ⟨b, .empty, 0, []⟩ trees 0)

/-- Taking trees, a binarizer that keeps the chains of rules with a certain property still does so if
the productions have it. -/
theorem Training.Progress.keeps_foldl_take {p : Training.Progress κ} {m : Markovization}
    {P : Rule κ → Prop} (h : p.binarizer.Keeps m P) {trees : List Tree}
    (hproductions : ∀ rule ∈ productions trees, P rule) (place : Nat) :
    ((trees.zipIdx place).foldl Progress.take p).binarizer.Keeps m P := by
  induction trees generalizing p place with
  | nil => exact h
  | cons t rest ih =>
    rw [productions, List.flatMap_cons, List.forall_mem_append] at hproductions
    rw [List.zipIdx_cons, List.foldl_cons]
    refine ih ?_ hproductions.2 (place + 1)
    rw [(p.take_spec (t, place)).1]
    exact h.binarizeAll hproductions.1

/-- What a binarizer keeps after a training run whose productions have a certain property. -/
theorem Binarizer.Keeps.binarizer_train {b : Binarizer κ} {m : Markovization} {P : Rule κ → Prop}
    (h : b.Keeps m P) {trees : List Tree} (hproductions : ∀ rule ∈ productions trees, P rule) :
    (b.train trees).binarizer.Keeps m P := by
  have hstart : (⟨b, .empty, 0, []⟩ : Training.Progress κ).binarizer.Keeps m P := h
  exact Training.Progress.keeps_foldl_take hstart hproductions 0

/-- A rule with at most two symbols on the right stays as it is. -/
theorem Binarizer.mem_binarizeAll (b : Binarizer κ) {rules : List (Rule κ)} {rule : Rule κ}
    (h : rule ∈ rules) (hsize : rule.rhs.size ≤ 2) : rule ∈ (b.binarizeAll rules).2 := by
  induction rules generalizing b with
  | nil => exact absurd h List.not_mem_nil
  | cons first rest ih =>
    rw [binarizeAll]
    rcases List.mem_cons.1 h with rfl | h
    · rw [binarize, if_pos hsize]
      exact List.mem_append_left _ List.mem_cons_self
    · exact List.mem_append_right _ (ih _ h)

/-- A production with at most two symbols on the right is counted as it is. -/
theorem Binarizer.mem_counted (b : Binarizer κ) {trees : List Tree} {rule : Rule κ}
    (h : rule ∈ productions trees) (hsize : rule.rhs.size ≤ 2) : rule ∈ b.counted trees := by
  induction trees generalizing b with
  | nil => exact absurd h List.not_mem_nil
  | cons t rest ih =>
    rw [productions, List.flatMap_cons, List.mem_append] at h
    rw [counted]
    rcases h with h | h
    · exact List.mem_append_left _ (b.mem_binarizeAll h hsize)
    · exact List.mem_append_right _ (ih _ h)

/-! ## Labels that are words -/

/-- A binarizer that keeps the chains of plain rules counts the pieces of plain productions. -/
theorem Binarizer.Keeps.counted_eq_pieces {b : Binarizer κ} {m : Markovization}
    (h : b.Keeps m Rule.Plain) {trees : List Tree}
    (hplain : ∀ rule ∈ (productions trees : List (Rule κ)), rule.Plain) :
    b.counted trees = (productions trees).flatMap m.pieces := by
  induction trees generalizing b with
  | nil => rfl
  | cons t rest ih =>
    rw [productions, List.flatMap_cons, List.forall_mem_append] at hplain
    have hrest := ih (h.binarizeAll hplain.1) hplain.2
    calc b.counted (t :: rest)
        = (b.binarizeAll t.productions).2 ++ (b.binarizeAll t.productions).1.counted rest := rfl
      _ = t.productions.flatMap m.pieces ++ (productions rest).flatMap m.pieces := by
        rw [h.binarizeAll_eq_pieces hplain.1, hrest]
      _ = (productions (t :: rest)).flatMap m.pieces := by
        rw [← List.flatMap_append]
        rfl

/-- A run of a binarizer that keeps the chains of plain rules counts the pieces of the productions,
and the binarizer still keeps none but these. -/
theorem Binarizer.Keeps.train {b : Binarizer κ} {m : Markovization} (h : b.Keeps m Rule.Plain)
    {trees : List Tree} (hlabels : ∀ t ∈ trees, t.AllLabels IsWord) :
    (b.train trees).binarizer.Keeps m Rule.Plain ∧ (b.train trees).grammar =
      (Grammar.empty.countAll ((productions trees).flatMap m.pieces)).estimate := by
  have hplain : ∀ rule ∈ (productions trees : List (Rule κ)), rule.Plain :=
    fun rule hr => (Training.proper_of_mem_productions hlabels hr).toPlain
  refine ⟨h.binarizer_train hplain, ?_⟩
  rw [b.grammar_train_eq, h.counted_eq_pieces hplain]

/-- What a training run counts and estimates. -/
theorem grammar_train (m : Markovization) {trees : List Tree}
    (hlabels : ∀ t ∈ trees, t.AllLabels IsWord) :
    (train m trees : Training.Result κ).grammar =
      (Grammar.empty.countAll ((productions trees).flatMap m.pieces)).estimate :=
  ((Binarizer.keeps_new m Rule.Plain).train hlabels).2

/-- The parts of speech of unknown words are those of known ones. -/
theorem exists_of_mem_smoothing_train {m : Markovization} {trees : List Tree}
    (hlabels : ∀ t ∈ trees, t.AllLabels IsWord) {entry : TagCost κ}
    (h : entry ∈ (train m trees : Training.Result κ).grammar.smoothing) :
    ∃ known found, (train m trees : Training.Result κ).grammar.lexicon.find? known = some found ∧
      ∃ rule ∈ found, rule.label? = some entry.tag := by
  rw [grammar_train _ hlabels] at h ⊢
  have hmem := Grammar.mem_of_mem_smoothingOf h
  obtain ⟨rule, hr, hlabel⟩ := List.mem_filterMap.1 hmem
  obtain ⟨found, hfound, hr⟩ := List.mem_flatten.1 (List.mem_filter.1 hr).1
  obtain ⟨known, hknown⟩ :=
    OrderedMap.exists_find?_of_mem_values (Grammar.nodup_keys_lexiconOf _) hfound
  exact ⟨known, found, hknown, rule, hr, hlabel⟩

end Constituency
