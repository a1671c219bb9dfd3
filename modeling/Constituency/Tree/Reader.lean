import Constituency.Text.Blank
import Constituency.Tree.Basic

/-!
# Reading trees in brackets

The text is cut into parentheses and words, where a word is a maximal run of characters that are
neither blank nor a parenthesis. The tokens are read from left to right with a stack of open
nodes. An opening parenthesis right before another one opens an anonymous wrapper, which stands
for the single tree inside it.

Every token carries its position, counted in bytes of the UTF-8 form of the text.
-/

namespace Constituency.Tree

/-- A parenthesis or a word. -/
inductive Token where
  | opening
  | closing
  | word (text : String)
  deriving DecidableEq

/-- A token and the position of its first byte. -/
structure Placed where
  /-- The number of bytes before the token. -/
  position : Nat
  /-- The token. -/
  token : Token
  deriving DecidableEq

/-- The word that starts at a position and whose characters have been taken, last one first; no
characters make no word. -/
def placedWord (start : Nat) : List Char → List Placed
  | [] => []
  | taken => [⟨start, .word (String.ofList taken.reverse)⟩]

/-- The tokens of a text from a position on. A word that has been begun starts at `start`, and its
characters so far are `taken`, last one first. -/
def tokensFrom (start : Nat) (taken : List Char) (position : Nat) : List Char → List Placed
  | [] => placedWord start taken
  | c :: rest =>
    let next := position + c.utf8Size
    if c = '(' then
      placedWord start taken ++ ⟨position, .opening⟩ :: tokensFrom next [] next rest
    else if c = ')' then
      placedWord start taken ++ ⟨position, .closing⟩ :: tokensFrom next [] next rest
    else if Text.isBlank c then placedWord start taken ++ tokensFrom next [] next rest
    else tokensFrom start (c :: taken) next rest

/-- The tokens of a text. -/
def tokens (text : String) : List Placed := tokensFrom 0 [] 0 text.toList

/-- Why a text is no tree. -/
inductive ReadError where
  /-- The text holds no token. -/
  | empty
  /-- A parenthesis closes nothing, or one is never closed and the text ends here. -/
  | unbalanced (position : Nat)
  /-- A node has no label here, a wrapper that closes here does not hold exactly one tree, or a
  word stands outside of any node. -/
  | missingLabel (position : Nat)
  /-- A node with this label has no children. -/
  | noChildren (label : String)
  /-- The tree is complete and something follows. -/
  | trailingInput (position : Nat)
  deriving DecidableEq

/-- The wording of an error. -/
def ReadError.message : ReadError → String
  | .empty => "árvore vazia"
  | .unbalanced position => s!"parênteses desbalanceados na posição {position}"
  | .missingLabel position => s!"nó sem rótulo na posição {position}"
  | .noChildren label => s!"nó interno '{label}' sem filhos"
  | .trailingInput position => s!"conteúdo extra após a árvore na posição {position}"

/-- A node that is still open: its label, or none for an anonymous wrapper, and the children read
so far, last one first. -/
structure OpenNode where
  /-- The label of the node; a wrapper has none. -/
  label : Option String
  /-- The children so far, last one first. -/
  children : List Tree

namespace OpenNode

/-- Adds the next child. -/
def push (inner : OpenNode) (child : Tree) : OpenNode :=
  { inner with children := child :: inner.children }

/-- The tree that a closing parenthesis at a position makes of the node. -/
def close (position : Nat) : OpenNode → Except ReadError Tree
  | ⟨none, [only]⟩ => .ok only
  | ⟨none, _⟩ => .error (.missingLabel position)
  | ⟨some label, []⟩ => .error (.noChildren label)
  | ⟨some label, children⟩ => .ok (node label children.reverse)

end OpenNode

/-- Reads tokens inside the open nodes, innermost first, up to the end of the text, whose length in
bytes is `size`. -/
def readTokens (size : Nat) : List OpenNode → List Placed → Except ReadError Tree
  | _, [] => .error (.unbalanced size)
  | nodes, ⟨_, .opening⟩ :: ⟨_, .word label⟩ :: rest =>
    readTokens size (⟨some label, []⟩ :: nodes) rest
  | nodes, ⟨_, .opening⟩ :: ⟨next, .opening⟩ :: rest =>
    readTokens size (⟨none, []⟩ :: nodes) (⟨next, .opening⟩ :: rest)
  | _, ⟨position, .opening⟩ :: _ => .error (.missingLabel position)
  | [], ⟨position, .closing⟩ :: _ => .error (.unbalanced position)
  | [inner], ⟨position, .closing⟩ :: rest =>
    match inner.close position, rest with
    | .error error, _ => .error error
    | .ok t, [] => .ok t
    | .ok _, ⟨next, _⟩ :: _ => .error (.trailingInput next)
  | inner :: outer :: nodes, ⟨position, .closing⟩ :: rest =>
    match inner.close position with
    | .error error => .error error
    | .ok t => readTokens size (outer.push t :: nodes) rest
  | [], ⟨position, .word _⟩ :: _ => .error (.missingLabel position)
  | inner :: nodes, ⟨_, .word text⟩ :: rest =>
    readTokens size (inner.push (leaf text) :: nodes) rest

/-- Reads a tree in brackets. -/
def read (text : String) : Except ReadError Tree :=
  match tokens text with
  | [] => .error .empty
  | placed => readTokens text.utf8ByteSize [] placed

end Constituency.Tree
