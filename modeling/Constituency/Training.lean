import Constituency.Binarization
import Constituency.Grammar.Basic
import Constituency.Tree.Shape

/-!
# Training

A grammar is trained on trees: every node that is no leaf is an occurrence of the rule from its
label to the labels of its children, the rules are binarized and counted, and the counts are
estimated. A tree without the shape of a training tree is left out. Estimation does not fail here,
as every rule that is counted has one symbol on the left.
-/

namespace Constituency

variable {κ : Type} [Cost κ]

namespace Tree

mutual

/-- The rules of the nodes of a tree in pre-order; `top` says whether its root is the root of the
whole tree. -/
def rulesFrom (top : Bool) : Tree → List (Rule κ)
  | node _ [] => []
  | node label (child :: rest) =>
    let children := child :: rest
    ⟨Side.single label, ⟨children.map Tree.label⟩, 0, (node label children).isPreTerminal, top⟩ ::
      (rulesFrom false child ++ rulesFromAll rest)

/-- The rules of the nodes below a root, one tree after the other. -/
def rulesFromAll : List Tree → List (Rule κ)
  | [] => []
  | t :: rest => rulesFrom false t ++ rulesFromAll rest

end

/-- The rules of a training tree, not yet binarized. -/
def rules (t : Tree) : Except ShapeError (List (Rule κ)) := do
  t.validate
  return t.rulesFrom true

end Tree

namespace Training

/-- A tree that was left out: its place in the list, counted from zero, and what is wrong. -/
structure Skip where
  /-- The place of the tree. -/
  place : Nat
  /-- What is wrong with its shape. -/
  error : Tree.ShapeError
  deriving DecidableEq

/-- The wording that reports a tree that was left out. -/
def Skip.message : String := "árvore de treino mal formada, ignorada"

/-- What can be said of a training run. -/
structure Stats where
  /-- The number of trees used. -/
  trees : Nat
  /-- The number of trees left out. -/
  skipped : Nat
  /-- The number of distinct rules counted. -/
  distinctRules : Nat
  /-- The number of syntactic rules. -/
  syntacticRules : Nat
  /-- The number of known words. -/
  lexicalEntries : Nat
  /-- The number of rules for which the binarizer has made a chain, in all its runs. -/
  binarizedProductions : Nat
  deriving DecidableEq

/-- A training run that is under way. -/
structure Progress (κ : Type) where
  /-- The binarizer with the chains made so far. -/
  binarizer : Binarizer κ
  /-- The grammar with the rules counted so far. -/
  grammar : Grammar κ
  /-- The number of trees used so far. -/
  used : Nat
  /-- The trees left out so far, in order. -/
  skips : List Skip

/-- Uses a tree, or leaves it out. -/
def Progress.take (p : Progress κ) (tree : Tree × Nat) : Progress κ :=
  match tree.1.rules with
  | .error error => { p with skips := p.skips ++ [⟨tree.2, error⟩] }
  | .ok rules =>
    let (binarizer, binary) := p.binarizer.binarizeAll rules
    { p with binarizer, grammar := p.grammar.countAll binary, used := p.used + 1 }

/-- What a training run comes to. -/
structure Result (κ : Type) where
  /-- The binarizer, which may be used for another run. -/
  binarizer : Binarizer κ
  /-- The trained grammar. -/
  grammar : Grammar κ
  /-- The trees left out, in order. -/
  skips : List Skip
  /-- The figures of the run. -/
  stats : Stats

end Training

open Training in
/-- Trains a grammar on trees with a binarizer. -/
def Binarizer.train (binarizer : Binarizer κ) (trees : List Tree) : Result κ :=
  let progress := trees.zipIdx.foldl Progress.take ⟨binarizer, .empty, 0, []⟩
  let grammar := progress.grammar.estimate
  { binarizer := progress.binarizer
    grammar
    skips := progress.skips
    stats :=
      { trees := progress.used
        skipped := progress.skips.length
        distinctRules := grammar.counts.size
        syntacticRules := grammar.syntactic.length
        lexicalEntries := grammar.lexicon.size
        binarizedProductions := progress.binarizer.memo.size } }

/-- Trains a grammar on trees, with a Markovization of its own. -/
def train (order : Markovization) (trees : List Tree) : Training.Result κ :=
  (Binarizer.new order).train trees

end Constituency
