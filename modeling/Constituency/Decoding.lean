import Constituency.Chart.Basic
import Constituency.Tagging

/-!
# Decoding

The decoder finds a derivation of least cost of the start symbol over a sentence. It fills a chart
from the shortest spans to the longest: the cells of single words from the candidates of the tagger,
every other cell from all divisions of its span into two. A cell is then closed under the unary
rules, and the binary rules that can use its labels are listed.

At a division, the rules that apply are those listed on both sides, on the left as rules whose first
symbol is a label and on the right as rules whose second symbol is one. The shorter of the two lists
is gone through, and the other one is probed for the number of each rule.

The closure goes in waves. The first wave starts from all labels of the cell, every other wave from
the labels that the wave before has improved, each with its best edge so far. A rule fires at most
once for a cell, so that even rules in a circle come to an end.
-/

namespace Constituency

variable {κ : Type} [Cost κ] {n : Nat}

/-- A rule that applies at a division: its number and the edges below it. -/
structure Match where
  /-- The number of the rule. -/
  rule : Nat
  /-- The number of the edge on the left. -/
  left : Nat
  /-- The number of the edge on the right. -/
  right : Nat
  deriving DecidableEq

/-- The closure of a cell under the unary rules while it is under way. -/
structure Closure (κ : Type) (n : Nat) where
  /-- The chart. -/
  chart : Chart κ n
  /-- The numbers of the rules that have fired. -/
  fired : List Nat
  /-- The labels that have been improved in this wave, in order. -/
  improved : List String

namespace Closure

/-- Fires a rule over an edge, unless it has fired before. A rule without a symbol on the left makes
no edge. -/
def fire (index : RuleIndex κ) (s : Span n) (child : Nat) (closure : Closure κ n) (number : Nat) :
    Closure κ n :=
  if closure.fired.contains number then closure
  else
    let fired := number :: closure.fired
    match index.rule? number with
    | none => { closure with fired }
    | some rule =>
      match rule.label? with
      | none => { closure with fired }
      | some label =>
        let edge : Edge κ := .unary label (rule.cost + closure.chart.costOf child) child
        if closure.chart.improves s label edge.cost then
          { chart := (closure.chart.place s edge).1
            fired
            improved :=
              if closure.improved.contains label then closure.improved
              else closure.improved ++ [label] }
        else { closure with fired }

/-- Fires the unary rules over the best edge of a label. -/
def visit (index : RuleIndex κ) (s : Span n) (closure : Closure κ n) (label : String) :
    Closure κ n :=
  match closure.chart.best? s label with
  | none => closure
  | some child => (index.unaryRules label).foldl (fire index s child) closure

/-- One wave, from the labels that the last one has improved. -/
def wave (index : RuleIndex κ) (s : Span n) (closure : Closure κ n) : Closure κ n :=
  closure.improved.foldl (visit index s) { closure with improved := [] }

/-- Waves until nothing is improved any more, but not more than `count`. -/
def waves (index : RuleIndex κ) (s : Span n) : (count : Nat) → Closure κ n → Closure κ n
  | 0, closure => closure
  | count + 1, closure =>
    if closure.improved.isEmpty then closure else waves index s count (closure.wave index s)

end Closure

namespace Chart

/-- Closes the cell of a span under the unary rules. Every wave but the last fires a rule, so there
is one wave more than unary rules at most. -/
def closeUnary (chart : Chart κ n) (index : RuleIndex κ) (s : Span n) : Chart κ n :=
  (Closure.waves index s (index.unaryCount + 1) ⟨chart, [], (chart.cell s).labels⟩).chart

/-- Closes the cell of a span and lists the binary rules that can use its labels; a span without a
cell stays without. -/
def finish (chart : Chart κ n) (index : RuleIndex κ) (s : Span n) : Chart κ n :=
  match chart.cell? s with
  | none => chart
  | some _ => (chart.closeUnary index s).index s index

/-- Fills the cell of a single word from its candidates. -/
def seed (index : RuleIndex κ) (chart : Chart κ n) (word : Span n × String × List (Candidate κ)) :
    Chart κ n :=
  let (s, text, candidates) := word
  let (chart, child) := chart.alloc (.word text)
  let filled :=
    candidates.foldl
      (fun chart candidate => chart.offered s (.unary candidate.tag candidate.cost child)) chart
  filled.finish index s

/-- The rules that apply at a division of a span, with the edges that they apply to. -/
def applicable (chart : Chart κ n) (left right : Span n) : List Match :=
  match chart.cell? left, chart.cell? right with
  | some l, some r =>
    if l.left.length ≤ r.right.length then
      l.left.filterMap fun use =>
        (Use.edgeOf? r.right use.rule).map fun other => ⟨use.rule, use.edge, other⟩
    else
      r.right.filterMap fun use =>
        (Use.edgeOf? l.left use.rule).map fun other => ⟨use.rule, other, use.edge⟩
  | _, _ => []

/-- The edge that a rule makes over two others; a rule without a symbol on the left makes none. -/
def combined? (chart : Chart κ n) (index : RuleIndex κ) (m : Match) : Option (Edge κ) := do
  let rule ← index.rule? m.rule
  let label ← rule.label?
  return .binary label (rule.cost + chart.costOf m.left + chart.costOf m.right) m.left m.right

/-- Offers the edges of one division to the cell of a span. -/
def divide (index : RuleIndex κ) (s : Span n) (chart : Chart κ n) (parts : Span n × Span n) :
    Chart κ n :=
  ((chart.applicable parts.1 parts.2).filterMap (chart.combined? index)).foldl
    (fun chart edge => chart.offered s edge) chart

/-- Fills the cell of a span of two words or more from all its divisions. -/
def combine (index : RuleIndex κ) (chart : Chart κ n) (s : Span n) : Chart κ n :=
  (s.splits.foldl (divide index s) chart).finish index s

/-- Fills the chart of a sentence whose words have candidates. -/
def fill (index : RuleIndex κ) (words : List (String × List (Candidate κ))) :
    Chart κ words.length :=
  let n := words.length
  let seeded := ((Span.ofLength n 1).zip words).foldl (seed index) (empty n)
  (List.range' 2 (n - 1)).foldl
    (fun chart length => (Span.ofLength n length).foldl (combine index) chart) seeded

/-- Whether a rule could be used somewhere in the chart. -/
def uses (chart : Chart κ n) (rule : Rule κ) : Bool :=
  let spans := (List.range n).flatMap fun length => Span.ofLength n (length + 1)
  let has (s : Span n) (label : String) : Bool := (chart.best? s label).isSome
  match rule.rhs.symbols with
  | [child] => spans.any (has · child)
  | [left, right] =>
    spans.any fun s => s.splits.any fun parts => has parts.1 left && has parts.2 right
  | _ => false

/-- The best derivation of a symbol over the whole sentence: its tree and its cost. -/
def derivation? (chart : Chart κ n) (start : String) : Option (Tree × κ) := do
  let whole ← Span.between? n 0 n
  let number ← chart.best? whole start
  let t ← chart.tree? number
  return (t, chart.costOf number)

end Chart

/-- Why a sentence has no derivation. -/
inductive DecodeError where
  /-- The start symbol derives no tree over the words, of which there are so many. -/
  | noParse (start : String) (words : Nat)
  /-- A rule without a symbol on the left had to be used. -/
  | unnamedRule (rule : UnnamedRule)
  deriving DecidableEq

/-- The wording of an error. -/
def DecodeError.message : DecodeError → String
  | .noParse start words => s!"sem parse: nenhuma derivação de '{start}' cobre as {words} palavras"
  | .unnamedRule rule => s!"regra sem lhs para '{rule.rhs.text}'"

/-- The grammar has no parts of speech for unknown words. -/
structure EmptySmoothing where
  deriving DecidableEq

/-- The wording of the error. -/
def EmptySmoothing.message : String :=
  "distribuição de suavização vazia: o corpus não possui regras lexicais"

/-- A derivation: its tree below the top symbol, which may hold introduced symbols, and its cost. -/
structure Derivation (κ : Type) where
  /-- The tree. -/
  tree : Tree
  /-- The cost. -/
  cost : κ
  deriving DecidableEq

/-- A grammar made ready for decoding. -/
structure Decoder (κ : Type) where
  /-- The grammar, for the tagger. -/
  grammar : Grammar κ
  /-- The index of its rules. -/
  index : RuleIndex κ
  /-- The tables for unknown words. -/
  unknown : UnknownWords κ
  /-- The symbol that a sentence is derived from. -/
  start : String
  /-- The label over every derivation. -/
  top : String

namespace Decoder

/-- Makes a grammar ready. It has to have parts of speech for unknown words. -/
def ofGrammar (grammar : Grammar κ) (unknown : UnknownWords κ) (start top : String) :
    Except EmptySmoothing (Decoder κ) :=
  if grammar.smoothing.isEmpty then .error {}
  else .ok { grammar, index := .ofGrammar grammar, unknown, start, top }

/-- Gives every word its candidates. -/
def tagged (d : Decoder κ) (words : List String) :
    Except UnnamedRule (List (String × List (Candidate κ))) :=
  words.mapM fun word => do
    let candidates ← d.grammar.tag d.unknown word
    return (word, candidates)

/-- Finds a derivation of least cost over a sentence. -/
def decode (d : Decoder κ) (words : List String) : Except DecodeError (Derivation κ) :=
  if words.isEmpty then .error (.noParse d.start 0)
  else
    match d.tagged words with
    | .error rule => .error (.unnamedRule rule)
    | .ok tagged =>
      let chart := Chart.fill d.index tagged
      match d.index.unnamed.find? chart.uses with
      | some rule => .error (.unnamedRule ⟨rule.rhs⟩)
      | none =>
        match chart.derivation? d.start with
        | some (t, cost) => .ok ⟨.node d.top [t], cost⟩
        | none => .error (.noParse d.start words.length)

end Decoder

end Constituency
