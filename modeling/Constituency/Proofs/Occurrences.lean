import Constituency.Proofs.Cost
import Constituency.Proofs.Grammar.Permutation
import Constituency.Proofs.Training

/-!
# The trees that are counted, and their order

A training run counts the binarized productions of the trees that pass the check (`occurrences`). A
tree that does not leaves no trace but in the list of such trees (`train_insert`), and the order of
the trees does not matter to what the grammar says of each rule, word and part of speech, since
binarized productions have no costs and differ only in their marks if they are the same
(`uniform_pieces`).
-/

namespace Constituency

open Text (IsWord)

variable {κ : Type} [Cost κ]

namespace Training

/-! ## Trees that are left out -/

namespace Progress

variable {p q : Progress κ}

/-- Two runs have come to the same, but for the trees that they have left out. -/
structure Alike (p q : Progress κ) : Prop where
  /-- They keep the same chains. -/
  binarizer : p.binarizer = q.binarizer
  /-- They have counted the same rules. -/
  grammar : p.grammar = q.grammar
  /-- They have used the same number of trees. -/
  used : p.used = q.used

/-- Two runs that have come to the same do so with one more tree, wherever it stands. -/
theorem Alike.take (h : p.Alike q) (t : Tree) (place other : Nat) :
    (p.take (t, place)).Alike (q.take (t, other)) := by
  unfold Progress.take
  dsimp only
  cases (t.rules : Except Tree.ShapeError (List (Rule κ))) with
  | error error => exact ⟨h.binarizer, h.grammar, h.used⟩
  | ok rules =>
    dsimp only
    rw [h.binarizer, h.grammar, h.used]
    exact ⟨rfl, rfl, rfl⟩

/-- Two runs that have come to the same do so with further trees. -/
theorem Alike.foldl_take (h : p.Alike q) (trees : List Tree) (place other : Nat) :
    ((trees.zipIdx place).foldl Progress.take p).Alike
      ((trees.zipIdx other).foldl Progress.take q) := by
  induction trees generalizing p q place other with
  | nil => exact h
  | cons t rest ih => exact ih (h.take t place other) (place + 1) (other + 1)

/-- A tree that does not pass the check leaves a run where it was. -/
theorem alike_take_of_rejected {t : Tree} (h : t.validate ≠ .ok ()) (place : Nat) :
    (p.take (t, place)).Alike p := by
  unfold Progress.take
  dsimp only
  cases hrules : (t.rules : Except Tree.ShapeError (List (Rule κ))) with
  | error error => exact ⟨rfl, rfl, rfl⟩
  | ok rules => exact absurd (Tree.rules_eq_ok_iff.1 hrules).1 h

/-- Every tree is used or left out. -/
theorem used_add_length_take (p : Progress κ) (tree : Tree × Nat) :
    (p.take tree).used + (p.take tree).skips.length = p.used + p.skips.length + 1 := by
  unfold Progress.take
  cases (tree.1.rules : Except Tree.ShapeError (List (Rule κ))) with
  | error error =>
    dsimp only
    rw [List.length_append, List.length_singleton, Nat.add_assoc]
  | ok rules =>
    dsimp only
    rw [Nat.add_right_comm]

/-- All trees are used or left out. -/
theorem used_add_length_foldl_take (p : Progress κ) (trees : List Tree) (place : Nat) :
    ((trees.zipIdx place).foldl Progress.take p).used +
        ((trees.zipIdx place).foldl Progress.take p).skips.length =
      p.used + p.skips.length + trees.length := by
  induction trees generalizing p place with
  | nil => rfl
  | cons t rest ih =>
    rw [List.zipIdx_cons, List.foldl_cons, ih, used_add_length_take, List.length_cons]
    omega

end Progress

/-- Every tree that is given to a run is used or left out. -/
theorem trees_add_skipped (b : Binarizer κ) (trees : List Tree) :
    (b.train trees).stats.trees + (b.train trees).stats.skipped = trees.length := by
  have hall := Progress.used_add_length_foldl_take ⟨b, .empty, 0, []⟩ trees 0
  rw [List.length_nil, Nat.zero_add] at hall
  exact hall

/-- A tree that does not pass the check changes neither the grammar nor the binarizer, wherever it
stands. It is one more tree that is left out. -/
theorem train_insert (b : Binarizer κ) (before after : List Tree) {rejected : Tree}
    (h : rejected.validate ≠ .ok ()) :
    (b.train (before ++ rejected :: after)).grammar = (b.train (before ++ after)).grammar ∧
      (b.train (before ++ rejected :: after)).binarizer = (b.train (before ++ after)).binarizer ∧
      (b.train (before ++ rejected :: after)).stats.skipped =
        (b.train (before ++ after)).stats.skipped + 1 := by
  let start : Progress κ := ⟨b, .empty, 0, []⟩
  have halike : ((before ++ rejected :: after).zipIdx.foldl Progress.take start).Alike
      ((before ++ after).zipIdx.foldl Progress.take start) := by
    -- The trees behind it stand one place further on, which is seen only in those left out.
    rw [List.zipIdx_append, List.zipIdx_append, List.foldl_append, List.foldl_append,
      List.zipIdx_cons, List.foldl_cons]
    exact (Progress.alike_take_of_rejected h _).foldl_take after _ _
  have hused : (b.train (before ++ rejected :: after)).stats.trees =
      (b.train (before ++ after)).stats.trees := halike.used
  -- As many trees are used, and there is one more, so one more is left out.
  have hmore := trees_add_skipped b (before ++ rejected :: after)
  have hless := trees_add_skipped b (before ++ after)
  rw [List.length_append, List.length_cons] at hmore
  rw [List.length_append] at hless
  exact ⟨congrArg Grammar.estimate halike.grammar, halike.binarizer, by omega⟩

/-! ## Occurrences -/

/-- The binarized productions of the trees that pass the check, each made by a new binarizer. -/
def occurrences (m : Markovization) (trees : List Tree) : List (Rule κ) :=
  (trees.filter (·.validate.isOk)).flatMap fun t =>
    (t.rulesFrom true).flatMap fun rule => ((Binarizer.new m).binarize rule).2

/-- The binarized productions are the pieces of the productions. -/
theorem occurrences_eq (m : Markovization) (trees : List Tree) :
    (occurrences m trees : List (Rule κ)) = (productions trees).flatMap m.pieces := by
  rw [productions_eq_flatMap, List.flatMap_assoc]
  refine List.flatMap_congr fun t _ => List.flatMap_congr fun rule _ => ?_
  exact Binarizer.binarize_new m rule

/-- The pieces of productions are uniform if labels are words. -/
theorem uniform_pieces (m : Markovization) {trees : List Tree}
    (hlabels : ∀ t ∈ trees, t.AllLabels IsWord) :
    Rule.Uniform ((productions trees : List (Rule κ)).flatMap m.pieces) := by
  have hplain : ∀ piece ∈ (productions trees : List (Rule κ)).flatMap m.pieces, piece.Plain :=
    fun piece hpiece => (Markovization.proper_of_mem_flatMap_pieces
      (fun rule hrule => proper_of_mem_productions hlabels hrule) hpiece).toPlain
  have hcost : ∀ piece ∈ (productions trees : List (Rule κ)).flatMap m.pieces,
      piece.cost = 0 := by
    intro piece hpiece
    obtain ⟨rule, hrule, hpiece⟩ := List.mem_flatMap.1 hpiece
    obtain ⟨v, -, mark, rfl⟩ := exists_node_of_mem_productions hrule
    exact Markovization.cost_of_mem_pieces rfl hpiece
  intro piece hpiece other hother hkey
  obtain ⟨hlhs, hrhs⟩ := (hplain piece hpiece).sides_eq (hplain other hother) hkey
  exact ⟨hlhs, hrhs, (hcost piece hpiece).trans (hcost other hother).symm⟩

/-- A grammar counts the binarized productions of the trees that pass the check: a rule as often as
it is one of them. A tree that does not pass changes nothing but the number of trees that are left
out, and the order of the trees only that in which a grammar lists what it says. -/
theorem train_counts_valid (m : Markovization) {trees : List Tree}
    (hlabels : ∀ t ∈ trees, t.AllLabels IsWord) :
    (∀ rule : Rule κ, (train m trees : Result κ).grammar.countOf rule.key =
      (occurrences m trees).countP rule.same) ∧
    (train m trees : Result κ).stats.trees + (train m trees : Result κ).stats.skipped =
      trees.length ∧
    (∀ before after rejected, trees = before ++ after → rejected.validate ≠ .ok () →
      (train m (before ++ rejected :: after) : Result κ).grammar = (train m trees).grammar ∧
      (train m (before ++ rejected :: after) : Result κ).stats.skipped =
        (train m trees : Result κ).stats.skipped + 1) ∧
    ∀ others, trees.Perm others →
      (train m trees : Result κ).grammar.Reordered (train m others).grammar := by
  let b : Binarizer κ := .new m
  refine ⟨fun rule => ?_, trees_add_skipped b trees, ?_, fun others hperm => ?_⟩
  · rw [grammar_train m hlabels, occurrences_eq]
    have hcount : (Grammar.empty.countAll
        ((productions trees : List (Rule κ)).flatMap m.pieces)).estimate.countOf rule.key =
          (Grammar.empty.countAll ((productions trees).flatMap m.pieces)).countOf rule.key := rfl
    rw [hcount, Grammar.countOf_countAll]
    exact List.countP_congr fun piece _ => by rw [Rule.same, beq_iff_eq, beq_iff_eq, eq_comm]
  · rintro before after rejected rfl hrejected
    obtain ⟨hgrammar, -, hskipped⟩ := train_insert b before after hrejected
    exact ⟨hgrammar, hskipped⟩
  · have hothers : ∀ t ∈ others, t.AllLabels IsWord := fun t ht => hlabels t (hperm.symm.subset ht)
    rw [grammar_train m hlabels, grammar_train m hothers]
    have hproductions : (productions trees : List (Rule κ)).Perm (productions others) :=
      hperm.flatMap_right _
    exact Grammar.estimate_perm (hproductions.flatMap_right _) (uniform_pieces m hlabels)

/-- Two trees, in which one rule stands at a root and below one. -/
def nestedDogs : List Tree :=
  [.node "NP" [.node "DT" [.leaf "the"], .node "JJ" [.leaf "big"], .node "NN" [.leaf "dog"]],
    .node "S" [.node "NP" [.node "DT" [.leaf "the"], .node "JJ" [.leaf "old"],
      .node "NN" [.leaf "dog"]]]]

/-- The first piece of this rule occurs twice, a tree with words beside nodes is left out between
the two, and the other order of the two comes to the same grammar up to its order. -/
theorem train_counts_valid_nestedDogs :
    (∀ t ∈ nestedDogs, t.AllLabels IsWord) ∧
      (train (.order 1) nestedDogs : Result WholeCost).grammar.countOf ("NP", "DT [DT]@NP") = 2 ∧
      (Tree.node "NP" [.leaf "the", .node "NN" [.leaf "dog"]]).validate ≠ .ok () ∧
      (train (.order 1) (nestedDogs.take 1 ++
          .node "NP" [.leaf "the", .node "NN" [.leaf "dog"]] :: nestedDogs.drop 1) :
        Result WholeCost).grammar = (train (.order 1) nestedDogs).grammar ∧
      (train (.order 1) nestedDogs : Result WholeCost).grammar ≠
        (train (.order 1) nestedDogs.reverse).grammar ∧
      (train (.order 1) nestedDogs : Result WholeCost).grammar.Reordered
        (train (.order 1) nestedDogs.reverse).grammar := by
  have hlabels : ∀ t ∈ nestedDogs, t.AllLabels IsWord := by decide +kernel
  have hrejected : (Tree.node "NP" [.leaf "the", .node "NN" [.leaf "dog"]]).validate ≠ .ok () := by
    decide +kernel
  obtain ⟨hcount, -, hinsert, hperm⟩ :=
    train_counts_valid (κ := WholeCost) (.order 1) hlabels
  have hkey : (Rule.plain ⟨["NP"]⟩ ⟨["DT", "[DT]@NP"]⟩ ⟨0⟩ : Rule WholeCost).key =
      ("NP", "DT [DT]@NP") := by decide +kernel
  refine ⟨hlabels, ?_, hrejected, ?_, by decide +kernel, hperm _ nestedDogs.reverse_perm.symm⟩
  · rw [← hkey, hcount]
    decide +kernel
  · exact (hinsert _ _ _ (List.take_append_drop 1 nestedDogs).symm hrejected).1

end Training

end Constituency
