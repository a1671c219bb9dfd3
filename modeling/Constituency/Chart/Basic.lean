import Constituency.Chart.Span
import Constituency.RuleIndex
import Constituency.Tree.Basic

/-!
# Charts

The chart of a sentence has a cell for each of its spans. A cell holds the best edge found for each
label, where an edge is one step of a derivation: a word, or a label over one or two other edges.
Edges are numbered in the order in which they are made, and an edge is made after those below it,
so the numbers below an edge are smaller than its own.

A cell also lists, for each binary rule that can use one of its labels as the first or as the second
symbol, the best edge of that label.

The tree of a derivation is rebuilt without recursion: edges that are still to be visited wait in
one list, and the trees that have been built in another.
-/

namespace Constituency

variable {κ : Type}

/-- A step of a derivation. Edges below it are given by their numbers. -/
inductive Edge (κ : Type) where
  /-- A word by itself. -/
  | word (text : String)
  /-- A label over one edge; the cost is that of the whole derivation. -/
  | unary (label : String) (cost : κ) (child : Nat)
  /-- A label over two edges; the cost is that of the whole derivation. -/
  | binary (label : String) (cost : κ) (left right : Nat)
  deriving DecidableEq

namespace Edge

/-- The label of an edge; that of a word is the word itself. -/
def label : Edge κ → String
  | word text => text
  | unary label _ _ => label
  | binary label _ _ _ => label

/-- The cost of the derivation that ends with the edge; a word costs nothing. -/
def cost [Cost κ] : Edge κ → κ
  | word _ => 0
  | unary _ cost _ => cost
  | binary _ cost _ _ => cost

end Edge

/-- A binary rule and the edge that it can use as its first, or as its second, part. -/
structure Use where
  /-- The number of the rule. -/
  rule : Nat
  /-- The number of the edge. -/
  edge : Nat
  deriving DecidableEq

/-- The edge with which a list has a rule. -/
def Use.edgeOf? (uses : List Use) (rule : Nat) : Option Nat :=
  (uses.find? fun use => use.rule == rule).map Use.edge

/-- What a chart holds for a span. -/
structure Cell where
  /-- The number of the best edge of each label, in the order of the labels' first edges. -/
  best : OrderedMap String Nat
  /-- The binary rules whose first symbol is a label of the cell, each with the edge of that
  label. -/
  left : List Use
  /-- The binary rules whose second symbol is a label of the cell, each with the edge of that
  label. -/
  right : List Use
  deriving DecidableEq

namespace Cell

/-- The cell without edges. -/
def empty : Cell := ⟨.empty, [], []⟩

/-- The labels of a cell, in the order of their first edges. -/
def labels (cell : Cell) : List String := cell.best.keys

/-- Lists every rule that `rulesOf` gives for a label of the cell, with the edge of that label. -/
def uses (cell : Cell) (rulesOf : String → List Nat) : List Use :=
  cell.best.entries.flatMap fun (label, edge) => (rulesOf label).map (⟨·, edge⟩)

/-- Lists anew which binary rules can use the labels of the cell. -/
def indexed (cell : Cell) (index : RuleIndex κ) : Cell :=
  { cell with
    left := cell.uses index.firstRules
    right := cell.uses index.secondRules }

end Cell

/-- The chart of a sentence of `n` words. -/
structure Chart (κ : Type) (n : Nat) where
  /-- The edges by their numbers. -/
  edges : Array (Edge κ)
  /-- The cells of the spans, by their slots; a cell is made when its first edge is. -/
  cells : Vector (Option Cell) (Span.total n)

namespace Chart

variable {n : Nat}

/-- The chart without edges. -/
def empty (n : Nat) : Chart κ n := ⟨#[], Vector.replicate _ none⟩

/-- The cell of a span, if it has been made. -/
def cell? (chart : Chart κ n) (s : Span n) : Option Cell := chart.cells.get ⟨s.slot, s.slot_lt⟩

/-- The cell of a span, empty if it has not been made. -/
def cell (chart : Chart κ n) (s : Span n) : Cell := (chart.cell? s).getD .empty

/-- Puts a cell into its place. -/
def setCell (chart : Chart κ n) (s : Span n) (cell : Cell) : Chart κ n :=
  { chart with cells := chart.cells.set s.slot (some cell) s.slot_lt }

/-- The edge with a number. -/
def edge? (chart : Chart κ n) (number : Nat) : Option (Edge κ) := chart.edges[number]?

/-- The number of the best edge of a label over a span. -/
def best? (chart : Chart κ n) (s : Span n) (label : String) : Option Nat :=
  (chart.cell s).best.find? label

/-- Makes an edge, which gets the next number, without putting it into a cell. -/
def alloc (chart : Chart κ n) (edge : Edge κ) : Chart κ n × Nat :=
  let number := chart.edges.size
  ({ chart with edges := chart.edges.push edge }, number)

/-- Makes an edge the best one of its label over a span. -/
def promote (chart : Chart κ n) (s : Span n) (label : String) (number : Nat) : Chart κ n :=
  let cell := chart.cell s
  chart.setCell s { cell with best := cell.best.insert label number }

/-- Makes an edge and puts it into a cell. -/
def place (chart : Chart κ n) (s : Span n) (edge : Edge κ) : Chart κ n × Nat :=
  let (chart, number) := chart.alloc edge
  (chart.promote s edge.label number, number)

section Costs

variable [Cost κ]

/-- The cost of the edge with a number. -/
def costOf (chart : Chart κ n) (number : Nat) : κ := ((chart.edge? number).map Edge.cost).getD 0

/-- Whether an edge of a certain label and cost would be the best one: there is none yet, or it is
strictly cheaper. -/
def improves (chart : Chart κ n) (s : Span n) (label : String) (cost : κ) : Bool :=
  match chart.best? s label with
  | some current => decide (cost < chart.costOf current)
  | none => true

/-- Puts an edge that has been made into a cell if it improves it; of equally cheap edges the
earlier one stays. -/
def register (chart : Chart κ n) (s : Span n) (number : Nat) : Option (Chart κ n) :=
  match chart.edge? number with
  | some edge =>
    if chart.improves s edge.label edge.cost then some (chart.promote s edge.label number) else none
  | none => none

/-- Makes an edge and puts it into a cell if it improves it, and does nothing otherwise. -/
def offer (chart : Chart κ n) (s : Span n) (edge : Edge κ) : Option (Chart κ n × Nat) :=
  if chart.improves s edge.label edge.cost then some (chart.place s edge) else none

/-- The chart after an edge has been offered, whether it was taken or not. -/
def offered (chart : Chart κ n) (s : Span n) (edge : Edge κ) : Chart κ n :=
  if chart.improves s edge.label edge.cost then (chart.place s edge).1 else chart

end Costs

/-- Lists in the cell of a span which binary rules can use its labels; the cell is made if there is
none. -/
def index (chart : Chart κ n) (s : Span n) (rules : RuleIndex κ) : Chart κ n :=
  chart.setCell s ((chart.cell s).indexed rules)

end Chart

/-- A visit of an edge while a tree is rebuilt: the edge is opened before the edges below it, and it
is closed after them. -/
inductive Visit where
  /-- The edge is opened. -/
  | opening (number : Nat)
  /-- The edge is closed: the trees of the edges below it have been built. -/
  | closing (number : Nat)
  deriving DecidableEq

namespace Visit

/-- A bound for the number of visits that come of one. -/
def weight : Visit → Nat
  | opening number => Nat.pow 3 (number + 1)
  | closing _ => 1

/-- A bound for the number of visits that come of several. -/
def weights : List Visit → Nat
  | [] => 0
  | visit :: rest => visit.weight + weights rest

/-- Closing an edge is one visit. -/
@[simp]
theorem weight_closing (number : Nat) : (closing number).weight = 1 := rfl

/-- Opening an older edge weighs less than a third of opening a newer one. -/
theorem three_mul_weight_le {older newer : Nat} (h : older < newer) :
    3 * (opening older).weight ≤ (opening newer).weight := by
  have hpow : Nat.pow 3 (older + 1) ≤ Nat.pow 3 newer := Nat.pow_le_pow_right (by decide) h
  show 3 * Nat.pow 3 (older + 1) ≤ Nat.pow 3 newer * 3
  omega

/-- Opening an edge weighs more than closing one. -/
theorem one_lt_weight (number : Nat) : 1 < (opening number).weight :=
  Nat.one_lt_pow (Nat.succ_ne_zero number) (by decide)

end Visit

namespace Chart

variable {n : Nat}

/-- Makes visits, the first of the list first. The trees that have been built wait in a list, the
last one first, until an edge above them is closed. There is no result if an edge does not exist, if
it is not newer than the edges below it, or if no trees are left to close it over. -/
def rebuild (edges : Array (Edge κ)) (visits : List Visit) (built : List Tree) :
    Option (List Tree) :=
  match visits with
  | [] => some built
  | .opening number :: rest =>
    match edges[number]? with
    | some (.word text) => rebuild edges rest (Tree.leaf text :: built)
    | some (.unary _ _ child) =>
      if child < number then rebuild edges (.opening child :: .closing number :: rest) built
      else none
    | some (.binary _ _ left right) =>
      if left < number then
        if right < number then
          rebuild edges (.opening left :: .opening right :: .closing number :: rest) built
        else none
      else none
    | none => none
  | .closing number :: rest =>
    match edges[number]?, built with
    | some (.word text), built => rebuild edges rest (Tree.leaf text :: built)
    | some (.unary label _ _), child :: built =>
      rebuild edges rest (Tree.node label [child] :: built)
    | some (.binary label _ _ _), right :: left :: built =>
      rebuild edges rest (Tree.node label [left, right] :: built)
    | _, _ => none
termination_by Visit.weights visits
decreasing_by
  · have hnumber := Visit.one_lt_weight number
    simp only [Visit.weights]
    omega
  · rename_i hchild
    have hweight := Visit.three_mul_weight_le hchild
    have hpos := Visit.one_lt_weight child
    simp only [Visit.weights, Visit.weight_closing]
    omega
  · rename_i hleft hright
    have hweight := Visit.three_mul_weight_le hleft
    have hweight' := Visit.three_mul_weight_le hright
    have hpos := Visit.one_lt_weight left
    simp only [Visit.weights, Visit.weight_closing]
    omega
  all_goals
    simp only [Visit.weights, Visit.weight_closing]
    omega

/-- The tree of the derivation that ends with an edge of the chart. -/
def tree? (chart : Chart κ n) (number : Nat) : Option Tree :=
  (rebuild chart.edges [.opening number] []).bind List.head?

end Chart

end Constituency
