import Constituency.Tree.Basic

/-!
# The shape of training trees

A training tree is no single word, and each of its nodes has either children that are all internal
nodes or pre-terminals, or exactly one child, a word.
-/

namespace Constituency.Tree

/-- What is wrong with the shape of a tree. -/
inductive ShapeError where
  /-- The tree is a single word. -/
  | noChildren (label : String)
  /-- A node has words among its children, and not only words. -/
  | mixedChildren (label : String)
  /-- A node has several words as its children. -/
  | widePreTerminal (label : String) (count : Nat)
  deriving DecidableEq

/-- The wording of an error. -/
def ShapeError.message : ShapeError → String
  | .noChildren label => s!"nó interno '{label}' sem filhos"
  | .mixedChildren label => s!"nó '{label}' mistura terminais e constituintes"
  | .widePreTerminal label count => s!"pré-terminal '{label}' com {count} palavras"

/-- The fault of a single node with the given children. -/
def nodeFault? (label : String) (children : List Tree) : Option ShapeError :=
  let leaves := children.countP isLeaf
  if 0 < leaves && leaves < children.length then some (.mixedChildren label)
  else if 1 < leaves then some (.widePreTerminal label leaves)
  else none

mutual

/-- The first fault below or at the root of a tree that is no leaf: a node is examined before its
children, and a later child with everything below it before an earlier one. -/
def fault? : Tree → Option ShapeError
  | node label children => nodeFault? label children <|> faultOfAll? children

/-- The first fault inside the trees of a list that are no leaves, the last tree first. -/
def faultOfAll? : List Tree → Option ShapeError
  | [] => none
  | t :: rest => faultOfAll? rest <|> if t.isLeaf then none else t.fault?

end

/-- Checks that a tree has the shape of a training tree. -/
def validate (t : Tree) : Except ShapeError Unit :=
  if t.isLeaf then .error (.noChildren t.label)
  else
    match t.fault? with
    | some error => .error error
    | none => .ok ()

end Constituency.Tree
