import Constituency.Tree.Basic

/-!
# Writing trees in brackets

A leaf is written as its word. Every other node is written between parentheses, the label first
and then the children, each after one space: `(S (NP (NN dogs)) (VP (VB bark)))`.
-/

namespace Constituency.Tree

mutual

/-- The text of a tree in brackets. -/
def text : Tree → String
  | node label [] => label
  | node label (child :: rest) => "(" ++ label ++ " " ++ child.text ++ textOfAll rest ++ ")"

/-- The texts of the further children, each after a space. -/
def textOfAll : List Tree → String
  | [] => ""
  | t :: rest => " " ++ t.text ++ textOfAll rest

end

end Constituency.Tree
