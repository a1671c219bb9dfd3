import Constituency.Proofs.Chart.Span
import Constituency.Proofs.RuleIndex
import Constituency.Proofs.Tree.Words
import Constituency.Tagging

/-!
# Derivations

What a decoder looks for, apart from any chart: the trees that a grammar derives, each with the cost
of deriving it so (`Derives`), and the labels that have such a tree over a part of a sentence,
without their trees (`Covers`). A derived tree is built bottom-up from candidates of the tagger, and
above them from numbered rules.

The unary rules of a derivation form chains. `InOrder` says that the chains climb through labels in
an order that is given for each part of the sentence.
-/

namespace Constituency

variable {κ : Type} [Cost κ]

/-! ## Trees and their costs -/

/-- A grammar derives a tree at a cost: a part of speech over one word is a candidate of the tagger,
and any other node is made by a numbered rule over one or two derived trees. -/
inductive Grammar.Derives (g : Grammar κ) (unknown : UnknownWords κ) : Tree → κ → Prop where
  /-- A candidate over its word. -/
  | word {text : String} {candidates : List (Candidate κ)} {candidate : Candidate κ}
      (tagged : g.tag unknown text = .ok candidates) (mem : candidate ∈ candidates) :
      Derives g unknown (.node candidate.tag [.leaf text]) candidate.cost
  /-- A rule over one tree. -/
  | unary {rule : Rule κ} {label : String} {t : Tree} {cost : κ}
      (numbered : rule ∈ (RuleIndex.ofGrammar g).rules) (named : rule.label? = some label)
      (rhs : rule.rhs.symbols = [t.label]) (below : Derives g unknown t cost) :
      Derives g unknown (.node label [t]) (rule.cost + cost)
  /-- A rule over two trees. -/
  | binary {rule : Rule κ} {label : String} {l r : Tree} {left right : κ}
      (numbered : rule ∈ (RuleIndex.ofGrammar g).rules) (named : rule.label? = some label)
      (rhs : rule.rhs.symbols = [l.label, r.label]) (first : Derives g unknown l left)
      (second : Derives g unknown r right) :
      Derives g unknown (.node label [l, r]) (rule.cost + left + right)

/-- A tree is a parse of a sentence at a cost: the grammar derives it at that cost, from the start
symbol and over the words of the sentence. -/
structure Grammar.Parses (g : Grammar κ) (unknown : UnknownWords κ) (start : String)
    (words : List String) (t : Tree) (cost : κ) : Prop where
  /-- The root has the start symbol. -/
  label : t.label = start
  /-- The leaves are the words of the sentence. -/
  words : t.words = words
  /-- The grammar derives the tree at the cost. -/
  derives : g.Derives unknown t cost

/-- A derived tree is more than a word. -/
theorem Grammar.Derives.isLeaf {g : Grammar κ} {unknown : UnknownWords κ} {t : Tree} {cost : κ}
    (h : g.Derives unknown t cost) : t.isLeaf = false := by
  cases h <;> rfl

/-! ## Parts of a sentence -/

namespace Span

variable {n : Nat} {s : Span n} {words : List String}

/-- A span that picks one word is that of one position. -/
theorem getElem?_of_pick_eq_singleton {word : String} (hn : words.length = n)
    (h : s.pick words = [word]) : s.length = 1 ∧ words[s.start]? = some word := by
  have hlength : s.length = 1 := by rw [← s.length_pick hn, h]; rfl
  have hstart : s.start < words.length := by
    have hlt := s.start_lt_stop
    have hle := s.stop_le
    omega
  refine ⟨hlength, ?_⟩
  rw [s.pick_of_length_one hlength (List.getElem?_eq_getElem hstart)] at h
  rw [List.getElem?_eq_getElem hstart, List.head_eq_of_cons_eq h]

/-- Where the words of a span are divided into two, the span is. -/
theorem exists_split_of_append {first second : List String} (hn : words.length = n)
    (h : first ++ second = s.pick words) (hfirst : first ≠ []) (hsecond : second ≠ []) :
    ∃ left right, (left, right) ∈ s.splits ∧ left.pick words = first ∧
      right.pick words = second := by
  have hlength : first.length + second.length = s.length := by
    rw [← List.length_append, h, s.length_pick hn]
  have hpos := List.length_pos_iff.2 hfirst
  have hpos' := List.length_pos_iff.2 hsecond
  have hs := s.start_add_length
  have hle := s.stop_le
  let left : Span n := ⟨s.start, s.start + first.length, by omega, by omega⟩
  let right : Span n := ⟨s.start + first.length, s.stop, by omega, by omega⟩
  have hsplit : (left, right) ∈ s.splits := mem_splits.2 ⟨rfl, rfl, rfl⟩
  have hleft : (left.pick words).length = first.length := by
    rw [left.length_pick hn]
    exact Nat.add_sub_cancel_left _ _
  obtain ⟨h1, h2⟩ := List.append_inj (h.trans (pick_append hsplit words).symm) hleft.symm
  exact ⟨left, right, hsplit, h1.symm, h2.symm⟩

end Span

/-- The labels that a grammar derives over the parts of a sentence: the least sets that hold the
candidates of the tagger and are closed under the rules. -/
inductive Grammar.Covers (g : Grammar κ) (unknown : UnknownWords κ) (words : List String) :
    Nat → Nat → String → Prop where
  /-- A candidate covers its word. -/
  | word {place : Nat} {text : String} {candidates : List (Candidate κ)} {candidate : Candidate κ}
      (here : words[place]? = some text) (tagged : g.tag unknown text = .ok candidates)
      (mem : candidate ∈ candidates) : Covers g unknown words place (place + 1) candidate.tag
  /-- A rule over one symbol covers what the symbol does. -/
  | unary {rule : Rule κ} {label symbol : String} {start stop : Nat} (mem : rule ∈ g.syntactic)
      (lhs : rule.lhs.symbols = [label]) (rhs : rule.rhs.symbols = [symbol])
      (below : Covers g unknown words start stop symbol) : Covers g unknown words start stop label
  /-- A rule over two symbols covers what they do one after the other. -/
  | binary {rule : Rule κ} {label first second : String} {start middle stop : Nat}
      (mem : rule ∈ g.syntactic) (lhs : rule.lhs.symbols = [label])
      (rhs : rule.rhs.symbols = [first, second])
      (left : Covers g unknown words start middle first)
      (right : Covers g unknown words middle stop second) :
      Covers g unknown words start stop label

/-- What is covered is a part of the sentence. -/
theorem Grammar.Covers.bounds {g : Grammar κ} {unknown : UnknownWords κ} {words : List String}
    {start stop : Nat} {label : String} (h : g.Covers unknown words start stop label) :
    start < stop ∧ stop ≤ words.length := by
  induction h with
  | word here _ _ =>
    obtain ⟨hlt, -⟩ := List.getElem?_eq_some_iff.1 here
    exact ⟨Nat.lt_succ_self _, hlt⟩
  | unary _ _ _ _ ih => exact ih
  | binary _ _ _ _ _ ihl ihr => exact ⟨ihl.1.trans ihr.1, ihr.2⟩

/-- The root of a derived tree covers the words of the tree, wherever they are in a sentence, if the
rules have one symbol on the left. -/
theorem Grammar.Derives.covers {g : Grammar κ} {unknown : UnknownWords κ} {n : Nat}
    {words : List String} (hn : words.length = n)
    (hlhs : ∀ rule ∈ g.syntactic, rule.lhs.symbols.length = 1) {t : Tree} {cost : κ}
    (h : g.Derives unknown t cost) {s : Span n} (hs : t.words = s.pick words) :
    g.Covers unknown words s.start s.stop t.label := by
  have hnamed : ∀ {rule : Rule κ} {label : String}, rule ∈ (RuleIndex.ofGrammar g).rules →
      rule.label? = some label → rule ∈ g.syntactic ∧ rule.lhs.symbols = [label] := by
    intro rule label hr hl
    have hmem := RuleIndex.mem_syntactic_of_mem_rules hr
    obtain ⟨symbol, hsymbol⟩ := List.length_eq_one_iff.1 (hlhs rule hmem)
    rw [Rule.label?, hsymbol] at hl
    exact ⟨hmem, by rw [hsymbol, Option.some.inj hl]⟩
  induction h generalizing s with
  | word tagged mem =>
    rw [Tree.words_unary, Tree.words_leaf] at hs
    obtain ⟨hlength, here⟩ := Span.getElem?_of_pick_eq_singleton hn hs.symm
    rw [← s.start_add_length, hlength]
    exact .word here tagged mem
  | unary numbered named rhs _ ih =>
    obtain ⟨hmem, hlhs⟩ := hnamed numbered named
    rw [Tree.words_unary] at hs
    exact .unary hmem hlhs rhs (ih hs)
  | @binary rule label l r _ _ numbered named rhs _ _ ihl ihr =>
    obtain ⟨hmem, hlhs⟩ := hnamed numbered named
    rw [Tree.words_binary] at hs
    -- The words of the two trees divide the span.
    obtain ⟨left, right, hsplit, hleft, hright⟩ :=
      Span.exists_split_of_append hn hs l.words_ne_nil r.words_ne_nil
    obtain ⟨h1, h2, h3⟩ := Span.mem_splits.1 hsplit
    have hl := ihl hleft.symm
    have hr := ihr hright.symm
    rw [h1, h2] at hl
    rw [h3] at hr
    exact .binary hmem hlhs rhs hl hr

/-! ## The order of unary chains -/

/-- The label of the only child of a node, unless that child is a word. -/
def Tree.below? : Tree → Option String
  | node _ [node label (_ :: _)] => some label
  | _ => none

/-- The label below a node over one tree that is more than a word. -/
theorem Tree.below?_unary {label : String} {t : Tree} (h : t.isLeaf = false) :
    (node label [t]).below? = some t.label := by
  obtain ⟨lower, children⟩ := t
  cases children with
  | nil => exact absurd (show true = false from h) nofun
  | cons child rest => rfl

/-- A node over two trees has no only child. -/
theorem Tree.below?_binary (label : String) (l r : Tree) : (node label [l, r]).below? = none := by
  cases l with
  | node lower children => cases children <;> rfl

/-- The unary chains of a tree that starts at a position climb in a given order: where a node stands
over one that stands over a third, the label of the third comes before that of the second. -/
inductive Tree.InOrder (before : Nat → Nat → String → String → Prop) : Nat → Tree → Prop where
  /-- A word under its part of speech. -/
  | word {start : Nat} {tag text : String} : InOrder before start (.node tag [.leaf text])
  /-- A node over one tree. -/
  | unary {start : Nat} {label : String} {t : Tree} (below : InOrder before start t)
      (climbs : ∀ lower, t.below? = some lower →
        before start (start + t.words.length) lower t.label) :
      InOrder before start (.node label [t])
  /-- A node over two trees. -/
  | binary {start : Nat} {label : String} {l r : Tree} (first : InOrder before start l)
      (second : InOrder before (start + l.words.length) r) :
      InOrder before start (.node label [l, r])

/-- Chains that climb in an order climb in any order that has more pairs. -/
theorem Tree.InOrder.mono {before after : Nat → Nat → String → String → Prop}
    (hle : ∀ {start stop : Nat} {lower upper : String},
      before start stop lower upper → after start stop lower upper)
    {start : Nat} {t : Tree} (h : t.InOrder before start) : t.InOrder after start := by
  induction h with
  | word => exact .word
  | unary _ climbs ih => exact .unary ih fun lower hl => hle (climbs lower hl)
  | binary _ _ ihl ihr => exact .binary ihl ihr

end Constituency
