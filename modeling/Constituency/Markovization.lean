/-!
# Horizontal Markovization

When a rule with many symbols on the right is divided into binary ones, the symbols introduced on
the way remember some of the symbols that came before them. How many is the order of the
Markovization: all of them, or a window of the last ones, which is filled up with placeholders at
the start.

An introduced symbol is named after its window and its parent: `[DT,JJ]@NP`. The mark between the
two is what introduced symbols are known by.
-/

namespace Constituency

/-- How much history an introduced symbol keeps. -/
inductive Markovization where
  /-- All symbols that came before. -/
  | unbounded
  /-- The last `h` symbols. -/
  | order (h : Nat)
  deriving DecidableEq

namespace Markovization

/-- The mark in the name of an introduced symbol. -/
def mark : Char := '@'

/-- What fills the window where there is no history yet. -/
def placeholder : String := "-"

/-- Whether a label bears the mark of an introduced symbol. -/
def isMarked (label : String) : Bool := label.toList.contains mark

/-- An order below minus one. -/
structure InvalidOrder where
  /-- The order asked for. -/
  order : Int
  deriving DecidableEq

/-- The wording of the error. -/
def InvalidOrder.message (error : InvalidOrder) : String :=
  s!"ordem de markovização inválida: {error.order} (use -1 ou >= 0)"

/-- The Markovization of an order, where minus one stands for no bound. -/
def ofInt : Int → Except InvalidOrder Markovization
  | .ofNat h => .ok (order h)
  | .negSucc 0 => .ok unbounded
  | h => .error ⟨h⟩

/-- The order as a number, minus one for no bound. -/
def toInt : Markovization → Int
  | unbounded => -1
  | order h => h

/-- The order as text. -/
def text (m : Markovization) : String := toString m.toInt

/-- The window before the first symbol. -/
def emptyWindow : Markovization → List String
  | unbounded => []
  | order h => List.replicate h placeholder

/-- The window after one more symbol: a bounded window loses its oldest symbol. -/
def slide (m : Markovization) (window : List String) (symbol : String) : List String :=
  match m with
  | unbounded => window ++ [symbol]
  | order 0 => []
  | order (_ + 1) => window.drop 1 ++ [symbol]

/-- The name of the symbol introduced below a parent after a window. -/
def introduced (window : List String) (parent : String) : String :=
  "[" ++ ",".intercalate window ++ "]" ++ String.singleton mark ++ parent

end Markovization

end Constituency
