import Constituency.Proofs.Rule
import Constituency.Proofs.Tree.Shape
import Constituency.Proofs.Tree.Words

/-!
# The nodes of a tree

The nodes of a tree are listed in pre-order, each as the tree below it (`mem_nodes`). So what is
asked of all nodes can be decided, and nodes can be counted. The production of a node is its label
with those of its children, and the rules of a tree are the productions of its nodes that are no
words (`map_production_rulesFrom`).
-/

namespace Constituency

namespace Tree

/-- What a node makes of its label: the labels of its children. -/
def production (t : Tree) : String × List String := (t.label, t.children.map label)

mutual

/-- The nodes of a tree in pre-order. -/
def nodes : Tree → List Tree
  | node label children => node label children :: nodesOfAll children

/-- The nodes of a list of trees, one tree after the other. -/
def nodesOfAll : List Tree → List Tree
  | [] => []
  | t :: rest => t.nodes ++ nodesOfAll rest

end

/-- The nodes of a list of trees are those of the trees. -/
theorem nodesOfAll_eq_flatMap (ts : List Tree) : nodesOfAll ts = ts.flatMap nodes := by
  induction ts with
  | nil => rfl
  | cons t rest ih => rw [nodesOfAll, ih, List.flatMap_cons]

/-- The nodes of a tree are its root and those of its children. -/
theorem mem_nodes_node {label : String} {children : List Tree} {u : Tree} :
    u ∈ (node label children).nodes ↔ u = node label children ∨ ∃ c ∈ children, u ∈ c.nodes := by
  rw [nodes, nodesOfAll_eq_flatMap, List.mem_cons, List.mem_flatMap]

/-- The root is one of the nodes. -/
theorem self_mem_nodes (t : Tree) : t ∈ t.nodes := by
  obtain ⟨label, children⟩ := t
  exact mem_nodes_node.2 (Or.inl rfl)

/-- The nodes of a tree are the trees that stand in it. -/
theorem mem_nodes {t u : Tree} : u ∈ t.nodes ↔ u.Subtree t := by
  induction t using Tree.induction with
  | node label children ih =>
    rw [mem_nodes_node]
    constructor
    · rintro (rfl | ⟨c, hc, hu⟩)
      · exact .refl _
      · exact .child hc ((ih c hc).1 hu)
    · intro h
      cases h with
      | refl => exact Or.inl rfl
      | child hc hu => exact Or.inr ⟨_, hc, (ih _ hc).2 hu⟩

/-- The label of a leaf is one of the words. -/
theorem label_mem_words {t u : Tree} (hu : u ∈ t.nodes) (hleaf : u.isLeaf = true) :
    u.label ∈ t.words := by
  induction t using Tree.induction with
  | node label children ih =>
    rcases mem_nodes_node.1 hu with rfl | ⟨c, hc, hu⟩
    · obtain rfl : children = [] := List.isEmpty_iff.1 hleaf
      exact List.mem_singleton_self label
    · rw [words_node (List.ne_nil_of_mem hc), wordsOfAll_eq_flatMap]
      exact List.mem_flatMap.2 ⟨c, hc, ih c hc hu⟩

/-- All labels of a tree are those of its nodes. -/
theorem allLabels_iff {P : String → Prop} {t : Tree} :
    t.AllLabels P ↔ ∀ u ∈ t.nodes, P u.label := by
  constructor
  · intro h u hu
    exact (h.subtree (mem_nodes.1 hu)).root
  · intro h
    induction t using Tree.induction with
    | node label children ih =>
      refine .node (h _ (self_mem_nodes _)) fun c hc => ih c hc fun u hu => h u ?_
      exact mem_nodes_node.2 (Or.inr ⟨c, hc, hu⟩)

instance (P : String → Prop) [DecidablePred P] (t : Tree) : Decidable (t.AllLabels P) :=
  decidable_of_iff' _ allLabels_iff

/-- What holds of all labels holds of the words. -/
theorem AllLabels.of_mem_words {P : String → Prop} {t : Tree} (h : t.AllLabels P) {word : String}
    (hword : word ∈ t.words) : P word := by
  induction h with
  | @node label children here _ ih =>
    by_cases hne : children = []
    · subst hne
      exact List.mem_singleton.1 hword ▸ here
    · rw [words_node hne, wordsOfAll_eq_flatMap] at hword
      obtain ⟨c, hc, hword⟩ := List.mem_flatMap.1 hword
      exact ih c hc hword

/-- The labels of a flat tree are the top symbol, the part of speech and the words. -/
theorem allLabels_baseline {P : String → Prop} {sentence : List String} {tag top : String}
    (htop : P top) (htag : P tag) (hwords : ∀ word ∈ sentence, P word) :
    (baseline sentence tag top).AllLabels P := by
  refine .node htop fun c hc => ?_
  obtain ⟨word, hword, rfl⟩ := List.mem_map.1 hc
  refine .node htag fun d hd => ?_
  obtain rfl := List.mem_singleton.1 hd
  exact .node (hwords word hword) fun e he => absurd he List.not_mem_nil

/-! ## Rules and productions -/

variable {κ : Type} [Cost κ]

/-- The production of the rule of a node is that of the node. -/
theorem production_ruleAt (top : Bool) (t : Tree) :
    (ruleAt top t : Rule κ).production = t.production := by
  rw [Rule.production, ruleAt, Side.text_single, production]

/-- The rules of a list of trees are those of the trees in turn. -/
theorem rulesFromAll_eq_flatMap (ts : List Tree) :
    (rulesFromAll ts : List (Rule κ)) = ts.flatMap (rulesFrom false) := by
  induction ts with
  | nil => rfl
  | cons t rest ih => rw [rulesFromAll, ih, List.flatMap_cons]

/-- The rules of a node that is no word: its own and those of its children in turn. -/
theorem rulesFrom_node {label : String} {children : List Tree} (hne : children ≠ []) (top : Bool) :
    ((node label children).rulesFrom top : List (Rule κ)) =
      ruleAt top (node label children) :: children.flatMap (rulesFrom false) := by
  obtain ⟨child, rest, rfl⟩ := List.exists_cons_of_ne_nil hne
  rw [rulesFrom, rulesFromAll_eq_flatMap, List.flatMap_cons]
  rfl

/-- The rules of a tree are the productions of its nodes that are no words. -/
theorem map_production_rulesFrom (top : Bool) (t : Tree) :
    (t.rulesFrom top : List (Rule κ)).map Rule.production =
      (t.nodes.filter fun u => !u.isLeaf).map production := by
  induction t using Tree.induction generalizing top with
  | node label children ih =>
    by_cases hnil : children = []
    · subst hnil
      rfl
    · have hleaf : (node label children).isLeaf = false := List.isEmpty_eq_false_iff.2 hnil
      have hbelow : (children.flatMap (rulesFrom false) : List (Rule κ)).map Rule.production =
          ((children.flatMap nodes).filter fun u => !u.isLeaf).map production := by
        rw [List.map_flatMap, List.filter_flatMap, List.map_flatMap]
        exact List.flatMap_congr fun c hc => ih c hc false
      rw [rulesFrom_node hnil, nodes, nodesOfAll_eq_flatMap, List.filter_cons, hleaf]
      simp only [Bool.not_false, if_true, List.map_cons, hbelow, production_ruleAt]

end Tree

end Constituency
