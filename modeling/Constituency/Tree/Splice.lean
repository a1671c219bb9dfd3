import Constituency.Markovization
import Constituency.Tree.Basic

/-!
# Removing introduced symbols from trees

Every node below the root that is no leaf and whose label bears the mark of an introduced symbol
gives way to its children. This restores the nodes of more than two children that binarization has
divided.
-/

namespace Constituency.Tree

/-- What stands in the place of a tree whose own children have been restored. -/
def spliced (t : Tree) : List Tree :=
  if !t.isLeaf && Markovization.isMarked t.label then t.children else [t]

mutual

/-- Removes the introduced nodes below the root. -/
def debinarize : Tree → Tree
  | node label children => node label (debinarizeAll children)

/-- Restores the children of a node. -/
def debinarizeAll : List Tree → List Tree
  | [] => []
  | t :: rest => t.debinarize.spliced ++ debinarizeAll rest

end

end Constituency.Tree
