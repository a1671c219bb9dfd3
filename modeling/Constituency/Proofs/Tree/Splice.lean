import Constituency.Proofs.Binarization
import Constituency.Proofs.Cost
import Constituency.Proofs.Tree.Nodes
import Constituency.Tree.Splice

/-!
# Restoring what binarization has divided

A node of more than two children is divided by the chain of its rule: its first child stays, and the
others come under a node for the next rule of the chain, which is divided in turn (`binarized`).
All nodes that come in between bear the mark of an introduced symbol and have children, so removing
the introduced nodes puts the children back in their places, one link of the chain after the other
(`debinarizeAll_divided`). What else is removed was in the tree before, whatever its labels are;
hence a binarized tree is restored to what removing makes of the tree itself
(`debinarize_binarized`).
-/

namespace Constituency.Tree

open Markovization (isMarked)

/-! ## Removing introduced nodes -/

/-- The root keeps its label. -/
@[simp]
theorem label_debinarize (t : Tree) : t.debinarize.label = t.label := by
  cases t
  rfl

/-- The label of a node that is restored. -/
theorem debinarize_node (label : String) (children : List Tree) :
    (node label children).debinarize = node label (debinarizeAll children) := rfl

/-- A tree whose label bears no mark stays. -/
theorem spliced_of_unmarked {t : Tree} (h : isMarked t.label = false) : t.spliced = [t] := by
  simp [spliced, h]

/-- A single word stays. -/
theorem spliced_of_isLeaf {t : Tree} (h : t.isLeaf = true) : t.spliced = [t] := by
  simp [spliced, h]

/-- A node whose label bears the mark gives way to its children. -/
theorem spliced_of_marked {t : Tree} (hleaf : t.isLeaf = false) (h : isMarked t.label = true) :
    t.spliced = t.children := by
  simp [spliced, hleaf, h]

/-- Something stands in the place of a tree. -/
theorem spliced_ne_nil (t : Tree) : t.spliced ≠ [] := by
  unfold spliced
  split
  · rename_i h
    rw [Bool.and_eq_true, Bool.not_eq_true'] at h
    exact List.isEmpty_eq_false_iff.1 h.1
  · exact List.cons_ne_nil _ _

/-- No children are left only of no children. -/
theorem debinarizeAll_eq_nil_iff {ts : List Tree} : debinarizeAll ts = [] ↔ ts = [] := by
  cases ts with
  | nil => exact ⟨fun _ => rfl, fun _ => rfl⟩
  | cons t rest =>
    have hne := spliced_ne_nil t.debinarize
    simp [debinarizeAll, hne]

/-- A node stays a node. -/
@[simp]
theorem isLeaf_debinarize (t : Tree) : t.debinarize.isLeaf = t.isLeaf := by
  obtain ⟨label, children⟩ := t
  show (debinarizeAll children).isEmpty = children.isEmpty
  rw [Bool.eq_iff_iff, List.isEmpty_iff, List.isEmpty_iff, debinarizeAll_eq_nil_iff]

/-- The children that are restored come from the children in turn. -/
theorem debinarizeAll_eq_flatMap (ts : List Tree) :
    debinarizeAll ts = ts.flatMap fun t => t.debinarize.spliced := by
  induction ts with
  | nil => rfl
  | cons t rest ih => rw [debinarizeAll, ih, List.flatMap_cons]

/-- Where no label bears the mark, the labels of the restored children are those of the children. -/
theorem map_label_debinarizeAll {ts : List Tree} (h : ∀ t ∈ ts, isMarked t.label = false) :
    (debinarizeAll ts).map label = ts.map label := by
  induction ts with
  | nil => rfl
  | cons t rest ih =>
    have hfirst : isMarked t.debinarize.label = false := by
      rw [label_debinarize]
      exact h t List.mem_cons_self
    rw [debinarizeAll, spliced_of_unmarked hfirst, List.singleton_append, List.map_cons,
      List.map_cons, label_debinarize, ih fun u hu => h u (List.mem_cons_of_mem t hu)]

/-- No node below the root bears the mark of an introduced symbol; words may hold it. -/
def Unmarked (t : Tree) : Prop :=
  ∀ c ∈ t.children, ∀ u ∈ c.nodes, u.isLeaf = false → isMarked u.label = false

instance (t : Tree) : Decidable t.Unmarked :=
  inferInstanceAs (Decidable (∀ c ∈ t.children, ∀ u ∈ c.nodes, _ → _))

/-- Where no node is marked, nothing is removed. -/
theorem Unmarked.debinarize {t : Tree} (h : t.Unmarked) : t.debinarize = t := by
  induction t using Tree.induction with
  | node label children ih =>
    have hbelow : ∀ c ∈ children, c.Unmarked := by
      intro c hc d hd u hu hleaf
      obtain ⟨lower, grandchildren⟩ := c
      exact h _ hc u (mem_nodes_node.2 (Or.inr ⟨d, hd, hu⟩)) hleaf
    have hchild : ∀ c ∈ children, c.debinarize.spliced = [c] := by
      intro c hc
      rw [ih c hc (hbelow c hc)]
      cases hleaf : c.isLeaf with
      | true => exact spliced_of_isLeaf hleaf
      | false => exact spliced_of_unmarked (h c hc c (self_mem_nodes c) hleaf)
    have hall : debinarizeAll children = children := by
      calc debinarizeAll children = children.flatMap fun c => c.debinarize.spliced :=
            debinarizeAll_eq_flatMap children
        _ = children.flatMap fun c => [c] := List.flatMap_congr hchild
        _ = children := List.flatMap_singleton' children
    rw [debinarize_node, hall]

/-- In the place of a tree stand its children, if it is a node that bears the mark, and otherwise
the tree itself. -/
theorem spliced_cases (t : Tree) :
    (t.isLeaf = false ∧ t.spliced = t.children) ∨
      t.spliced = [t] ∧ (t.isLeaf = false → isMarked t.label = false) := by
  cases hleaf : t.isLeaf with
  | true => exact Or.inr ⟨spliced_of_isLeaf hleaf, nofun⟩
  | false =>
    cases hmark : isMarked t.label with
    | true => exact Or.inl ⟨rfl, spliced_of_marked hleaf hmark⟩
    | false => exact Or.inr ⟨spliced_of_unmarked hmark, fun _ => rfl⟩

/-- The nodes that are left have the labels of nodes that there were. -/
theorem exists_of_mem_nodes_debinarize {t u : Tree} (hu : u ∈ t.debinarize.nodes) :
    ∃ v ∈ t.nodes, v.label = u.label ∧ v.isLeaf = u.isLeaf := by
  induction t using Tree.induction with
  | node label children ih =>
    rw [debinarize_node] at hu
    rcases mem_nodes_node.1 hu with rfl | ⟨c, hc, hu⟩
    · exact ⟨_, self_mem_nodes _, rfl, (isLeaf_debinarize (node label children)).symm⟩
    · rw [debinarizeAll_eq_flatMap] at hc
      obtain ⟨child, hchild, hc⟩ := List.mem_flatMap.1 hc
      have hmem : u ∈ child.debinarize.nodes := by
        rcases spliced_cases child.debinarize with ⟨-, hspliced⟩ | ⟨hspliced, -⟩
        · rw [hspliced] at hc
          obtain ⟨lower, grandchildren⟩ := child
          exact mem_nodes_node.2 (Or.inr ⟨c, hc, hu⟩)
        · rw [hspliced] at hc
          exact List.mem_singleton.1 hc ▸ hu
      obtain ⟨v, hv, hsame⟩ := ih child hchild hmem
      exact ⟨v, mem_nodes_node.2 (Or.inr ⟨child, hchild, hv⟩), hsame⟩

/-- What stands in the place of a tree has the words of the tree. -/
theorem flatMap_words_spliced (t : Tree) : t.spliced.flatMap words = t.words := by
  obtain ⟨label, children⟩ := t
  rcases spliced_cases (node label children) with ⟨hleaf, hspliced⟩ | ⟨hspliced, -⟩
  · have hne : children ≠ [] := List.isEmpty_eq_false_iff.1 hleaf
    rw [hspliced, words_node hne, wordsOfAll_eq_flatMap]
    rfl
  · rw [hspliced, List.flatMap_singleton]

/-- Removing introduced nodes keeps the words in their order. -/
theorem words_debinarize (t : Tree) : t.debinarize.words = t.words := by
  induction t using Tree.induction with
  | node label children ih =>
    by_cases hne : children = []
    · subst hne
      rfl
    · have hne' : debinarizeAll children ≠ [] := mt debinarizeAll_eq_nil_iff.1 hne
      calc (node label children).debinarize.words
          = (debinarizeAll children).flatMap words := by
            rw [debinarize_node, words_node hne', wordsOfAll_eq_flatMap]
        _ = children.flatMap fun c => c.debinarize.words := by
            rw [debinarizeAll_eq_flatMap, List.flatMap_assoc]
            exact List.flatMap_congr fun c _ => flatMap_words_spliced c.debinarize
        _ = children.flatMap words := List.flatMap_congr ih
        _ = (node label children).words := by rw [words_node hne, wordsOfAll_eq_flatMap]

/-- If no node below the root is marked, only the root may be. -/
theorem Unmarked.eq_or_isMarked {t : Tree} (h : t.Unmarked) {u : Tree} (hu : u ∈ t.nodes)
    (hleaf : u.isLeaf = false) : u = t ∨ isMarked u.label = false := by
  obtain ⟨label, children⟩ := t
  rcases mem_nodes_node.1 hu with rfl | ⟨c, hc, hu⟩
  · exact Or.inl rfl
  · exact Or.inr (h c hc u hu hleaf)

/-- No node below the root is marked any more once the introduced nodes have been removed. -/
theorem unmarked_debinarize (t : Tree) : t.debinarize.Unmarked := by
  induction t using Tree.induction with
  | node label children ih =>
    intro c hc
    rw [debinarize_node, Tree.children, debinarizeAll_eq_flatMap] at hc
    obtain ⟨child, hchild, hc⟩ := List.mem_flatMap.1 hc
    rcases spliced_cases child.debinarize with ⟨-, hspliced⟩ | ⟨hspliced, hmark⟩
    · rw [hspliced] at hc
      exact ih child hchild c hc
    · rw [hspliced] at hc
      obtain rfl := List.mem_singleton.1 hc
      intro u hu hleaf
      rcases (ih child hchild).eq_or_isMarked hu hleaf with rfl | hmarked
      · exact hmark hleaf
      · exact hmarked

/-! ## Dividing nodes -/

variable {κ : Type}

/-- The children of a node once further rules have divided them: the first child stays, and the
others come under a node for the next rule, whose children are divided by the rules after it. -/
def divided : (links : List (Rule κ)) → List Tree → List Tree
  | link :: links, first :: rest => [first, node link.lhs.text (divided links rest)]
  | _, trees => trees

/-- Removing introduced nodes puts divided children back, if there are more of them than rules. -/
theorem debinarizeAll_divided {links : List (Rule κ)} {trees : List Tree}
    (hmarked : ∀ link ∈ links, isMarked link.lhs.text = true)
    (hlength : links.length < trees.length) :
    debinarizeAll (divided links trees) = debinarizeAll trees := by
  induction links generalizing trees with
  | nil => rfl
  | cons link links ih =>
    obtain ⟨first, rest, rfl⟩ := List.exists_cons_of_length_pos (Nat.zero_lt_of_lt hlength)
    have hrest : links.length < rest.length := Nat.lt_of_succ_lt_succ hlength
    have ih := ih (fun l hl => hmarked l (List.mem_cons_of_mem _ hl)) hrest
    have hne : rest ≠ [] := List.ne_nil_of_length_pos (Nat.zero_lt_of_lt hrest)
    have hleaf : (node link.lhs.text (debinarizeAll rest)).isLeaf = false :=
      List.isEmpty_eq_false_iff.2 fun hnil => hne (debinarizeAll_eq_nil_iff.1 hnil)
    -- The node of the link has children, so it gives way to what has been restored below it.
    calc debinarizeAll (divided (link :: links) (first :: rest))
        = first.debinarize.spliced ++
            ((node link.lhs.text (debinarizeAll (divided links rest))).spliced ++ []) := rfl
      _ = first.debinarize.spliced ++ debinarizeAll rest := by
          rw [ih, List.append_nil,
            spliced_of_marked hleaf (hmarked link List.mem_cons_self)]
          rfl
      _ = debinarizeAll (first :: rest) := rfl

variable [Cost κ]

variable (κ) in
mutual

/-- A tree with every node of more than two children divided by the chain that a new binarizer
gives for its rule. -/
def binarized (m : Markovization) : Tree → Tree
  | node label children =>
    let rule : Rule κ := ruleAt false (node label children)
    node label (divided ((Binarizer.new m).binarize rule).2.tail (binarizedAll m children))

/-- A list of trees with every such node divided. -/
def binarizedAll (m : Markovization) : List Tree → List Tree
  | [] => []
  | t :: rest => binarized m t :: binarizedAll m rest

end

/-- Trees are divided one by one. -/
theorem binarizedAll_eq_map (m : Markovization) (ts : List Tree) :
    binarizedAll κ m ts = ts.map (binarized κ m) := by
  induction ts with
  | nil => rfl
  | cons t rest ih => rw [binarizedAll, ih, List.map_cons]

/-- Removing introduced nodes does the same to a binarized tree as to the tree itself. -/
theorem debinarize_binarized_eq (m : Markovization) (t : Tree) :
    (t.binarized κ m).debinarize = t.debinarize := by
  induction t using Tree.induction with
  | node label children ih =>
    have hchildren : debinarizeAll (binarizedAll κ m children) = debinarizeAll children := by
      rw [binarizedAll_eq_map, debinarizeAll_eq_flatMap, debinarizeAll_eq_flatMap,
        List.flatMap_map]
      exact List.flatMap_congr fun c hc => by rw [ih c hc]
    let rule : Rule κ := ruleAt false (node label children)
    have hlinks : ((Binarizer.new m).binarize rule).2 = m.pieces rule :=
      Binarizer.binarize_new m rule
    have hmarked : ∀ link ∈ (m.pieces rule).tail, isMarked link.lhs.text = true := by
      intro link hlink
      obtain ⟨history, hlhs⟩ := Markovization.exists_introduced_of_mem_tail_pieces hlink
      rw [hlhs, Side.text_single, Markovization.isMarked_introduced]
    have hdivided : debinarizeAll (divided (m.pieces rule).tail (binarizedAll κ m children)) =
        debinarizeAll (binarizedAll κ m children) := by
      by_cases hnil : children = []
      · subst hnil
        rfl
      · have hsize : rule.rhs.size = children.length := List.length_map _
        have hpos : 0 < rule.rhs.size := hsize ▸ List.length_pos_iff.2 hnil
        have hlength : (binarizedAll κ m children).length = rule.rhs.size := by
          rw [binarizedAll_eq_map, List.length_map, hsize]
        exact debinarizeAll_divided hmarked
          (hlength ▸ Markovization.length_tail_pieces_lt hpos)
    calc ((node label children).binarized κ m).debinarize
        = node label
            (debinarizeAll (divided (m.pieces rule).tail (binarizedAll κ m children))) := by
          rw [binarized, debinarize_node, hlinks]
      _ = (node label children).debinarize := by rw [hdivided, hchildren, debinarize_node]

/-! ## The nodes of a binarized tree -/

/-- The root keeps its label. -/
@[simp]
theorem label_binarized (m : Markovization) (t : Tree) : (t.binarized κ m).label = t.label := by
  cases t
  rfl

/-- The nodes that come over divided children have the productions of the chain. -/
theorem exists_link_of_mem_nodes_divided {m : Markovization} {parent : String} {lhs : Side}
    {window : List String} {symbol : String} {rest : List String} {trees : List Tree}
    (hlabels : trees.map label = symbol :: rest) (hne : rest ≠ []) {u : Tree}
    (hu : u ∈ (node lhs.text
      (divided (m.links parent lhs window symbol rest : List (Rule κ)).tail trees)).nodes) :
    (∃ link ∈ (m.links parent lhs window symbol rest : List (Rule κ)),
      link.production = u.production) ∨ ∃ c ∈ trees, u ∈ c.nodes := by
  induction rest generalizing lhs window symbol trees u with
  | nil => exact absurd rfl hne
  | cons next rest ih =>
    cases rest with
    | nil =>
      rcases mem_nodes_node.1 hu with rfl | hu
      · exact Or.inl ⟨_, List.mem_cons_self, congrArg (Prod.mk lhs.text) hlabels.symm⟩
      · exact Or.inr hu
    | cons last rest =>
      obtain ⟨first, trees, rfl, hfirst, htrees⟩ := List.map_eq_cons_iff.1 hlabels
      let name := Markovization.introduced (m.slide window symbol) parent
      -- The others come under the symbol that the rest of the chain rewrites.
      obtain ⟨head, others, hlinks, hhead⟩ := Markovization.exists_links_eq_cons (κ := κ) m parent
        (Side.single name) (m.slide window symbol) next (List.cons_ne_nil last rest)
      have hname : head.lhs.text = name := by rw [hhead, Side.text_single]
      have hchain : (m.links parent lhs window symbol (next :: last :: rest) : List (Rule κ)) =
          Rule.plain lhs ⟨[symbol, name]⟩ 0 :: head :: others := by rw [← hlinks]; rfl
      have hbelow : ∀ v ∈ (node name (divided others trees)).nodes,
          (∃ link ∈ head :: others, link.production = v.production) ∨ ∃ c ∈ trees, v ∈ c.nodes := by
        intro v hv
        rw [← hlinks]
        refine ih htrees (List.cons_ne_nil last rest) ?_
        rw [hlinks, Side.text_single]
        exact hv
      rw [hchain, List.tail_cons, divided, hname, mem_nodes_node] at hu
      rw [hchain]
      rcases hu with rfl | ⟨c, hc, hu⟩
      · exact Or.inl ⟨_, List.mem_cons_self, by rw [← hfirst]; rfl⟩
      · rcases List.mem_cons.1 hc with rfl | hc
        · exact Or.inr ⟨c, List.mem_cons_self, hu⟩
        · obtain rfl := List.mem_singleton.1 hc
          rcases hbelow u hu with ⟨link, hlink, hproduction⟩ | ⟨c, hc, hu⟩
          · exact Or.inl ⟨link, List.mem_cons_of_mem _ hlink, hproduction⟩
          · exact Or.inr ⟨c, List.mem_cons_of_mem _ hc, hu⟩

/-- The nodes that come over the divided children of a node have the productions of the pieces of
its rule. -/
theorem exists_piece_of_mem_nodes_divided {m : Markovization} {rule : Rule κ} {trees : List Tree}
    (hlabels : trees.map label = rule.rhs.symbols) {u : Tree}
    (hu : u ∈ (node rule.lhs.text (divided (m.pieces rule).tail trees)).nodes) :
    (∃ piece ∈ m.pieces rule, piece.production = u.production) ∨ ∃ c ∈ trees, u ∈ c.nodes := by
  unfold Markovization.pieces at hu ⊢
  split at hu
  · rename_i hsize
    rw [if_pos hsize]
    rcases mem_nodes_node.1 hu with rfl | hu
    · exact Or.inl ⟨rule, List.mem_singleton_self rule, congrArg (Prod.mk _) hlabels.symm⟩
    · exact Or.inr hu
  · rename_i hsize
    rw [if_neg hsize]
    unfold Markovization.chain at hu ⊢
    split at hu
    · rename_i hnil
      exact absurd (by rw [Side.size, hnil]; exact Nat.zero_le 2) hsize
    · rename_i symbol rest hrhs
      have hne : rest ≠ [] := by
        rintro rfl
        exact hsize (by rw [Side.size, hrhs]; exact Nat.le_succ 1)
      rw [Markovization.tail_withTop] at hu
      rw [hrhs] at hlabels
      rcases exists_link_of_mem_nodes_divided hlabels hne hu with ⟨link, hlink, hproduction⟩ | hu
      · obtain ⟨piece, hpiece, hlhs, hrhs⟩ := Markovization.exists_mem_withTop rule.top hlink
        exact Or.inl ⟨piece, hpiece,
          (Rule.production_eq_of_sides hlhs hrhs).trans hproduction⟩
      · exact Or.inr hu

/-- The nodes of a binarized tree have the productions of the pieces. -/
theorem exists_piece_of_mem_nodes_binarized {m : Markovization} {t u : Tree}
    (hu : u ∈ (t.binarized κ m).nodes) :
    ∃ v ∈ t.nodes, ∃ piece ∈ m.pieces (ruleAt false v : Rule κ),
      piece.production = u.production := by
  induction t using Tree.induction with
  | node label children ih =>
    let rule : Rule κ := ruleAt false (node label children)
    have hlabels : (binarizedAll κ m children).map Tree.label = rule.rhs.symbols := by
      rw [binarizedAll_eq_map, List.map_map]
      exact List.map_congr_left fun c _ => label_binarized m c
    have htext : rule.lhs.text = label := Side.text_single label
    rw [binarized, Binarizer.binarize_new, ← htext] at hu
    rcases exists_piece_of_mem_nodes_divided hlabels hu with hpiece | ⟨child, hchild, hu⟩
    · exact ⟨_, self_mem_nodes _, hpiece⟩
    · rw [binarizedAll_eq_map] at hchild
      obtain ⟨c, hc, rfl⟩ := List.mem_map.1 hchild
      obtain ⟨v, hv, hpiece⟩ := ih c hc hu
      exact ⟨v, mem_nodes_node.2 (Or.inr ⟨c, hc, hv⟩), hpiece⟩

/-- Dividing the nodes of a tree and then removing the introduced ones does what removing them from
the tree itself does, which is nothing if no node below the root is marked. The divided tree has
nodes of two children at most, with the productions of the chains. -/
theorem debinarize_binarized (m : Markovization) (t : Tree) :
    (t.binarized κ m).debinarize = t.debinarize ∧
      (t.Unmarked → (t.binarized κ m).debinarize = t) ∧
      ∀ u ∈ (t.binarized κ m).nodes, u.children.length ≤ 2 ∧
        ∃ v ∈ t.nodes, ∃ piece ∈ ((Binarizer.new m).binarize (ruleAt false v : Rule κ)).2,
          piece.production = u.production := by
  refine ⟨debinarize_binarized_eq m t, fun h => ?_, fun u hu => ?_⟩
  · rw [debinarize_binarized_eq, h.debinarize]
  · obtain ⟨v, hv, piece, hpiece, hproduction⟩ := exists_piece_of_mem_nodes_binarized hu
    have hsize : u.children.length = piece.rhs.size := by
      have hsymbols : piece.rhs.symbols = u.children.map label := congrArg Prod.snd hproduction
      rw [Side.size, hsymbols, List.length_map]
    have hchain := Binarizer.binarize_new m (ruleAt false v : Rule κ)
    exact ⟨hsize ▸ Markovization.size_le_of_mem_pieces hpiece, v, hv, piece, hchain ▸ hpiece,
      hproduction⟩

/-- A tree in which a word and the label of the root hold the mark. -/
def oldDogs : Tree :=
  node "S@" [node "DT" [leaf "the"], node "JJ" [leaf "o@ld"], node "JJ" [leaf "big"],
    node "NN" [leaf "dogs"]]

/-- Its four children are divided twice, and they come back. -/
theorem debinarize_binarized_oldDogs :
    oldDogs.Unmarked ∧
      oldDogs.binarized WholeCost (.order 1) =
        node "S@" [node "DT" [leaf "the"], node "[DT]@S@" [node "JJ" [leaf "o@ld"],
          node "[JJ]@S@" [node "JJ" [leaf "big"], node "NN" [leaf "dogs"]]]] ∧
      (oldDogs.binarized WholeCost (.order 1)).debinarize = oldDogs := by
  have hunmarked : oldDogs.Unmarked := by decide
  have hdivided : oldDogs.binarized WholeCost (.order 1) =
      node "S@" [node "DT" [leaf "the"], node "[DT]@S@" [node "JJ" [leaf "o@ld"],
        node "[JJ]@S@" [node "JJ" [leaf "big"], node "NN" [leaf "dogs"]]]] := by decide +kernel
  exact ⟨hunmarked, hdivided, (debinarize_binarized (.order 1) oldDogs).2.1 hunmarked⟩

end Constituency.Tree
