import Constituency.Markovization
import Constituency.OrderedMap
import Constituency.Rule

/-!
# Binarization

A rule with more than two symbols on the right becomes a chain of binary rules. Each rule of the
chain takes the next symbol and leaves the rest to an introduced symbol, and the last one takes the
last two. Unbounded, `NP -> DT JJ JJ NN` becomes

    NP -> DT [DT]@NP,    [DT]@NP -> JJ [DT,JJ]@NP,    [DT,JJ]@NP -> JJ NN.

A binarizer keeps the chains that it has made, so that the same rule always gives the same chain.
-/

namespace Constituency

variable {κ : Type} [Cost κ]

namespace Markovization

/-- The rules that rewrite `lhs` to `symbol` and the symbols of `rest`, below a parent and after a
window. -/
def links (m : Markovization) (parent : String) (lhs : Side) (window : List String)
    (symbol : String) : (rest : List String) → List (Rule κ)
  | [] => []
  | [last] => [Rule.plain lhs ⟨[symbol, last]⟩ 0]
  | next :: rest =>
    let window := m.slide window symbol
    let name := introduced window parent
    Rule.plain lhs ⟨[symbol, name]⟩ 0 :: links m parent (Side.single name) window next rest

/-- Marks the first rule of a chain as found at the root, or not. -/
def withTop (top : Bool) : List (Rule κ) → List (Rule κ)
  | [] => []
  | first :: rest => { first with top } :: rest

/-- The chain of a rule with more than two symbols on the right. -/
def chain (m : Markovization) (rule : Rule κ) : List (Rule κ) :=
  match rule.rhs.symbols with
  | [] => []
  | symbol :: rest =>
    withTop rule.top (m.links rule.lhs.text rule.lhs m.emptyWindow symbol rest)

end Markovization

/-- A binarizer of a certain order and the chains that it has made. -/
structure Binarizer (κ : Type) where
  /-- How much history introduced symbols keep. -/
  order : Markovization
  /-- The chains made so far, by the identities of their rules. -/
  memo : OrderedMap RuleKey (List (Rule κ))

namespace Binarizer

/-- The binarizer that has made no chain yet. -/
def new (order : Markovization) : Binarizer κ := ⟨order, .empty⟩

/-- The rules with at most two symbols on the right that stand for a rule. A chain that has been
made before takes over the mark of the root from the rule at hand. -/
def binarize (b : Binarizer κ) (rule : Rule κ) : Binarizer κ × List (Rule κ) :=
  if rule.rhs.size ≤ 2 then (b, [rule])
  else
    match b.memo.find? rule.key with
    | some chain => (b, Markovization.withTop rule.top chain)
    | none =>
      let chain := b.order.chain rule
      ({ b with memo := b.memo.insert rule.key chain }, chain)

/-- Binarizes rules one after the other. -/
def binarizeAll (b : Binarizer κ) : List (Rule κ) → Binarizer κ × List (Rule κ)
  | [] => (b, [])
  | rule :: rest =>
    let (b, first) := b.binarize rule
    let (b, others) := b.binarizeAll rest
    (b, first ++ others)

end Binarizer

end Constituency
