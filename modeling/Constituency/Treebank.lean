import Constituency.Tree.Reader

/-!
# Treebanks

A treebank text holds trees in brackets, which may go over several lines. The balance of the
parentheses alone says where a tree begins and ends: it begins at an opening parenthesis outside of
any tree and ends at the parenthesis that closes it. Text outside of the trees, a tree that is never
closed and a tree that cannot be read are rejected, and reading goes on.
-/

namespace Constituency

namespace Treebank

/-- A part of a treebank text, with the position of its first byte. -/
inductive Item where
  /-- The text of a tree, whose parentheses balance. -/
  | tree (position : Nat) (source : String)
  /-- A run of text outside of any tree, or a tree that is never closed. -/
  | stray (position : Nat)
  deriving DecidableEq

/-- Where the scan of a treebank text stands. -/
inductive Scan where
  /-- Outside of any tree; text has been met since the last tree, or none. -/
  | outside (inStray : Bool)
  /-- Inside a tree: where it starts, how many parentheses are open, and its characters so far,
  last one first. -/
  | inside (start depth : Nat) (taken : List Char)

namespace Scan

/-- One character at a position: the next state, and the item that is found. -/
def step (position : Nat) (c : Char) : Scan → Scan × Option Item
  | outside inStray =>
    if c = '(' then (inside position 1 [c], none)
    else if Text.isBlank c || inStray then (outside inStray, none)
    else (outside true, some (.stray position))
  | inside start depth taken =>
    if c = '(' then (inside start (depth + 1) (c :: taken), none)
    else if c = ')' then
      if depth ≤ 1 then (outside false, some (.tree start (String.ofList (c :: taken).reverse)))
      else (inside start (depth - 1) (c :: taken), none)
    else (inside start depth (c :: taken), none)

/-- The item that the end of the text makes of an unclosed tree. -/
def finish : Scan → Option Item
  | outside _ => none
  | inside start _ _ => some (.stray start)

/-- The items found from a state and a position on. -/
def run (scan : Scan) (position : Nat) : List Char → List Item
  | [] => scan.finish.toList
  | c :: rest =>
    let (next, item) := scan.step position c
    item.toList ++ next.run (position + c.utf8Size) rest

end Scan

/-- The items of a treebank text, in order. -/
def items (text : String) : List Item := (Scan.outside false).run 0 text.toList

/-- A rejected item. -/
inductive Reject where
  /-- A tree that cannot be read. -/
  | malformed (position : Nat) (error : Tree.ReadError)
  /-- Text outside of any tree, or a tree that is never closed. -/
  | stray (position : Nat)
  deriving DecidableEq

/-- The wording that reports a rejected item. -/
def Reject.message : Reject → String
  | .malformed _ _ => "árvore ignorada"
  | .stray _ => "texto fora de uma árvore ignorado"

/-- The tree of an item, or its rejection. -/
def Item.read : Item → Except Reject Tree
  | .tree position source => (Tree.read source).mapError (.malformed position)
  | .stray position => .error (.stray position)

end Treebank

/-- The trees of a treebank text and the items that were rejected, each in order. -/
structure Treebank where
  /-- The trees that could be read. -/
  trees : List Tree
  /-- The items that could not. -/
  rejected : List Treebank.Reject

namespace Treebank

/-- Sorts results into trees and rejections. -/
def ofResults : List (Except Reject Tree) → Treebank
  | [] => ⟨[], []⟩
  | .ok t :: rest =>
    let bank := ofResults rest
    { bank with trees := t :: bank.trees }
  | .error reject :: rest =>
    let bank := ofResults rest
    { bank with rejected := reject :: bank.rejected }

/-- Reads a treebank text. -/
def read (text : String) : Treebank := ofResults ((items text).map Item.read)

/-- The number of rejected items. -/
def skipped (bank : Treebank) : Nat := bank.rejected.length

/-- The words of every tree. -/
def sentences (bank : Treebank) : List (List String) := bank.trees.map Tree.words

end Treebank

end Constituency
