import Constituency.Tree.Basic
import Mathlib.Data.List.Flatten

/-!
# The words of a tree

Every tree has a word. The words of a node that is no word are those of its children in turn, and
the flat tree of a sentence has just the words of the sentence.
-/

namespace Constituency.Tree

/-- A tree has a word. -/
theorem words_ne_nil : (t : Tree) → t.words ≠ []
  | node label [] => List.cons_ne_nil label []
  | node _ (child :: rest) => by
    rw [words]
    exact List.append_ne_nil_of_left_ne_nil child.words_ne_nil _

/-- The words of a node that is no word are those of its children. -/
theorem words_node {label : String} {children : List Tree} (hne : children ≠ []) :
    (node label children).words = wordsOfAll children := by
  cases children with
  | nil => exact absurd rfl hne
  | cons child rest => rfl

/-- The words of a node over one tree. -/
theorem words_unary (label : String) (t : Tree) : (node label [t]).words = t.words := by
  rw [words, wordsOfAll, List.append_nil]

/-- The words of a node over two trees. -/
theorem words_binary (label : String) (l r : Tree) :
    (node label [l, r]).words = l.words ++ r.words := by
  rw [words, wordsOfAll, wordsOfAll, List.append_nil]

/-- The word of a leaf. -/
theorem words_leaf (text : String) : (leaf text).words = [text] := rfl

/-- The words of a list of trees are those of the trees in turn. -/
theorem wordsOfAll_eq_flatMap (ts : List Tree) : wordsOfAll ts = ts.flatMap words := by
  induction ts with
  | nil => rfl
  | cons t rest ih => rw [wordsOfAll, ih, List.flatMap_cons]

/-- The flat tree of a sentence has the words of the sentence. -/
theorem words_baseline {sentence : List String} (hne : sentence ≠ []) (tag top : String) :
    (baseline sentence tag top).words = sentence := by
  have hchildren : (sentence.map fun word => node tag [leaf word]) ≠ [] :=
    mt List.map_eq_nil_iff.1 hne
  rw [baseline, words_node hchildren, wordsOfAll_eq_flatMap, List.flatMap_map]
  exact List.flatMap_singleton' sentence

end Constituency.Tree
