/-!
# Constituent trees

A node carries a label and its children in order. A node without children is a leaf and its label
is a word; a node whose only child is a leaf is a pre-terminal and its label is a part of speech;
every other node is an internal node and its label is a category.
-/

namespace Constituency

/-- A tree over text labels. -/
inductive Tree where
  | node (label : String) (children : List Tree)
  deriving Inhabited

namespace Tree

/-- The label of the root. -/
def label : Tree → String
  | node label _ => label

/-- The children of the root, in order. -/
def children : Tree → List Tree
  | node _ children => children

/-- A word. -/
def leaf (word : String) : Tree := node word []

/-- Holds of a tree that is a single word. -/
def isLeaf (t : Tree) : Bool := t.children.isEmpty

/-- Holds of a node over exactly one word. -/
def isPreTerminal (t : Tree) : Bool :=
  match t.children with
  | [child] => child.isLeaf
  | _ => false

mutual

/-- The words of the leaves, from left to right. -/
def words : Tree → List String
  | node label [] => [label]
  | node _ (child :: rest) => child.words ++ wordsOfAll rest

/-- The words of a list of trees, one tree after the other. -/
def wordsOfAll : List Tree → List String
  | [] => []
  | t :: rest => t.words ++ wordsOfAll rest

end

/-- The flat tree that stands for a sentence without a derivation: every word under the same part
of speech, and all of them under the top symbol. -/
def baseline (words : List String) (tag top : String) : Tree :=
  node top (words.map fun word => node tag [leaf word])

mutual

/-- Equality of trees can be decided. -/
def decideEq : (s t : Tree) → Decidable (s = t)
  | node a ss, node b ts =>
    if ha : a = b then
      match decideEqAll ss ts with
      | isTrue h => isTrue (by rw [ha, h])
      | isFalse h => isFalse fun e => h (by injection e)
    else isFalse fun e => ha (by injection e)

/-- Equality of lists of trees can be decided. -/
def decideEqAll : (ss ts : List Tree) → Decidable (ss = ts)
  | [], [] => isTrue rfl
  | [], _ :: _ => isFalse nofun
  | _ :: _, [] => isFalse nofun
  | s :: ss, t :: ts =>
    match decideEq s t with
    | isTrue h =>
      match decideEqAll ss ts with
      | isTrue hs => isTrue (by rw [h, hs])
      | isFalse hs => isFalse fun e => hs (by injection e)
    | isFalse h => isFalse fun e => h (by injection e)

end

instance : DecidableEq Tree := decideEq

end Tree

end Constituency
