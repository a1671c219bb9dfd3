import Constituency.Proofs.Chart.Calls
import Constituency.Proofs.Chart.Trees

/-!
# Unfolding edges

If calls on a chart use only edges that have been made, every edge is newer than the edges below it:
one call keeps this (`Founded.perform`), so any calls do (`Founded.performAll`). Hence every edge
unfolds into a tree, though edges may lie below several others, and may no longer be the best of
their labels. Rebuilding the tree of an edge ends with just this tree (`Rebuilds`), and it does so
whatever is called afterwards.

That it ends is not owed to the order of edges being looked at while it goes on: the same visits
come to the same end where nothing is asked of the edges but to exist (`Visiting`).
-/

namespace Constituency

variable {κ : Type} {n : Nat}

/-- The numbers of the edges right below an edge. -/
def Edge.parts : Edge κ → List Nat
  | word _ => []
  | unary _ _ child => [child]
  | binary _ _ left right => [left, right]

/-- The edge that a call makes, if it makes one; that of an offer is made if it is taken. -/
def Call.edge? : Call κ n → Option (Edge κ)
  | alloc edge | offer _ edge => some edge
  | register _ _ | index _ _ => none

namespace Chart

/-- A call uses only edges that have been made. -/
def Knows (chart : Chart κ n) (call : Call κ n) : Prop :=
  ∀ edge ∈ call.edge?, ∀ part ∈ edge.parts, part < chart.edges.size

instance (chart : Chart κ n) (call : Call κ n) : Decidable (chart.Knows call) :=
  inferInstanceAs (Decidable (∀ edge ∈ call.edge?, ∀ part ∈ edge.parts, part < chart.edges.size))

/-- Every edge is newer than the edges below it. -/
def Founded (chart : Chart κ n) : Prop :=
  ∀ {number : Nat} {edge : Edge κ}, chart.edge? number = some edge →
    ∀ part ∈ edge.parts, part < number

/-- An edge unfolds into a tree: a word into its leaf, and any other edge into its label over the
trees that the edges below it unfold into. -/
inductive Unfolds (chart : Chart κ n) : Nat → Tree → Prop where
  /-- A word is a leaf. -/
  | word {number : Nat} {text : String} (h : chart.edge? number = some (.word text)) :
    chart.Unfolds number (.leaf text)
  /-- A label stands over what the edge below unfolds into. -/
  | unary {number : Nat} {label : String} {cost : κ} {child : Nat} {t : Tree}
    (h : chart.edge? number = some (.unary label cost child)) (ht : chart.Unfolds child t) :
    chart.Unfolds number (.node label [t])
  /-- A label stands over what the edges below unfold into, from left to right. -/
  | binary {number : Nat} {label : String} {cost : κ} {left right : Nat} {l r : Tree}
    (h : chart.edge? number = some (.binary label cost left right))
    (hl : chart.Unfolds left l) (hr : chart.Unfolds right r) :
    chart.Unfolds number (.node label [l, r])

/-- Visits of edges that come to an end, with the trees that have been built before and in the end.
Nothing is asked of the numbers of edges, but an edge is closed only over trees that there are. -/
inductive Visiting (edges : Array (Edge κ)) : List Visit → List Tree → List Tree → Prop where
  /-- There are no visits to make. -/
  | done (built : List Tree) : Visiting edges [] built built
  /-- A word is put before the trees that have been built. -/
  | word {number : Nat} {text : String} {visit : Visit} {rest : List Visit}
    {built result : List Tree} (hvisit : visit = .opening number ∨ visit = .closing number)
    (h : edges[number]? = some (.word text))
    (hrest : Visiting edges rest (.leaf text :: built) result) :
    Visiting edges (visit :: rest) built result
  /-- An edge over one is opened. -/
  | openUnary {number child : Nat} {label : String} {cost : κ} {rest : List Visit}
    {built result : List Tree} (h : edges[number]? = some (.unary label cost child))
    (hrest : Visiting edges (.opening child :: .closing number :: rest) built result) :
    Visiting edges (.opening number :: rest) built result
  /-- An edge over two is opened. -/
  | openBinary {number left right : Nat} {label : String} {cost : κ} {rest : List Visit}
    {built result : List Tree} (h : edges[number]? = some (.binary label cost left right))
    (hrest :
      Visiting edges (.opening left :: .opening right :: .closing number :: rest) built result) :
    Visiting edges (.opening number :: rest) built result
  /-- An edge over one is closed over the tree that was built last. -/
  | closeUnary {number child : Nat} {label : String} {cost : κ} {rest : List Visit} {t : Tree}
    {built result : List Tree} (h : edges[number]? = some (.unary label cost child))
    (hrest : Visiting edges rest (.node label [t] :: built) result) :
    Visiting edges (.closing number :: rest) (t :: built) result
  /-- An edge over two is closed over the two trees that were built last. -/
  | closeBinary {number left right : Nat} {label : String} {cost : κ} {rest : List Visit}
    {l r : Tree} {built result : List Tree}
    (h : edges[number]? = some (.binary label cost left right))
    (hrest : Visiting edges rest (.node label [l, r] :: built) result) :
    Visiting edges (.closing number :: rest) (r :: l :: built) result

/-! ## What an edge unfolds into -/

variable {chart next : Chart κ n} {number : Nat}

/-- An edge unfolds into one tree. -/
theorem Unfolds.unique {t u : Tree} (ht : chart.Unfolds number t) (hu : chart.Unfolds number u) :
    u = t := by
  induction ht generalizing u with
  | word h =>
    cases hu with
    | word h' =>
      cases h.symm.trans h'
      rfl
    | unary h' _ => cases h.symm.trans h'
    | binary h' _ _ => cases h.symm.trans h'
  | unary h _ ih =>
    cases hu with
    | word h' => cases h.symm.trans h'
    | unary h' hu =>
      cases h.symm.trans h'
      rw [ih hu]
    | binary h' _ _ => cases h.symm.trans h'
  | binary h _ _ ihl ihr =>
    cases hu with
    | word h' => cases h.symm.trans h'
    | unary h' _ => cases h.symm.trans h'
    | binary h' hl hr =>
      cases h.symm.trans h'
      rw [ihl hl, ihr hr]

/-- An edge unfolds into the same tree as long as edges keep their numbers. -/
theorem Unfolds.mono {t : Tree} (ht : chart.Unfolds number t)
    (hedge : ∀ {k : Nat} {edge : Edge κ}, chart.edge? k = some edge → next.edge? k = some edge) :
    next.Unfolds number t := by
  induction ht with
  | word h => exact .word (hedge h)
  | unary h _ ih => exact .unary (hedge h) ih
  | binary h _ _ ihl ihr => exact .binary (hedge h) ihl ihr

/-- In the chart without edges there is none that is older than what is below it. -/
theorem founded_empty : (empty n : Chart κ n).Founded := nofun

/-- If every edge is newer than the edges below it, every edge unfolds into a tree. -/
theorem Founded.exists_unfolds (h : chart.Founded) (hlt : number < chart.edges.size) :
    ∃ t, chart.Unfolds number t := by
  -- The edges below have lesser numbers, so they are edges too and unfold by induction.
  induction number using Nat.strongRecOn with
  | ind number ih =>
    have hedge : chart.edge? number = some chart.edges[number] := Array.getElem?_eq_getElem hlt
    have hpart : ∀ part ∈ chart.edges[number].parts, ∃ t, chart.Unfolds part t := by
      intro part hp
      have hless := h hedge part hp
      exact ih part hless (Nat.lt_trans hless hlt)
    cases hform : chart.edges[number] with
    | word text => exact ⟨_, .word (hedge.trans (congrArg some hform))⟩
    | unary label cost child =>
      rw [hform] at hpart
      obtain ⟨t, ht⟩ := hpart child List.mem_cons_self
      exact ⟨_, .unary (hedge.trans (congrArg some hform)) ht⟩
    | binary label cost left right =>
      rw [hform] at hpart
      obtain ⟨l, hl⟩ := hpart left List.mem_cons_self
      obtain ⟨r, hr⟩ := hpart right (List.mem_cons_of_mem _ List.mem_cons_self)
      exact ⟨_, .binary (hedge.trans (congrArg some hform)) hl hr⟩

/-- If every edge is newer than the edges below it, recursion gives the tree that an edge unfolds
into. -/
theorem Founded.treeOf?_eq (h : chart.Founded) {t : Tree} (ht : chart.Unfolds number t) :
    treeOf? chart.edges number = some t := by
  induction ht with
  | word hedge =>
    unfold treeOf?
    rw [show chart.edges[_]? = _ from hedge]
  | unary hedge _ ih =>
    have hchild := h hedge _ List.mem_cons_self
    unfold treeOf?
    rw [show chart.edges[_]? = _ from hedge]
    simp only [if_pos hchild, ih, Option.map_some]
  | binary hedge _ _ ihl ihr =>
    have hleft := h hedge _ List.mem_cons_self
    have hright := h hedge _ (List.mem_cons_of_mem _ List.mem_cons_self)
    unfold treeOf?
    rw [show chart.edges[_]? = _ from hedge]
    simp only [if_pos hleft, if_pos hright, ihl, ihr]
    rfl

/-! ## Rebuilding -/

/-- Where rebuilding has a result, the visits come to this end by themselves. -/
theorem visiting_of_rebuild {edges : Array (Edge κ)} {visits : List Visit}
    {built result : List Tree} (h : rebuild edges visits built = some result) :
    Visiting edges visits built result := by
  fun_induction rebuild edges visits built with
  | case1 built =>
    obtain rfl := Option.some.inj h
    exact .done built
  | case2 built number rest text hedge ih => exact .word (.inl rfl) hedge (ih h)
  | case3 built number rest label cost child hedge hchild ih => exact .openUnary hedge (ih h)
  | case5 built number rest label cost left right hedge hleft hright ih =>
    exact .openBinary hedge (ih h)
  | case9 number rest text built hedge ih => exact .word (.inr rfl) hedge (ih h)
  | case10 number rest label cost child t built hedge ih => exact .closeUnary hedge (ih h)
  | case11 number rest label cost left right r l built hedge ih =>
    exact .closeBinary hedge (ih h)
  | case4 | case6 | case7 | case8 | case12 => cases h

/-- The tree of an edge is rebuilt. -/
structure Rebuilds (chart : Chart κ n) (number : Nat) (t : Tree) : Prop where
  /-- The edge unfolds into the tree and into no other. -/
  unfolds : ∀ {u}, chart.Unfolds number u ↔ u = t
  /-- Whatever else is to be visited and has been built, opening the edge comes to putting the tree
  before what has been built. -/
  opening : ∀ rest built, rebuild chart.edges (.opening number :: rest) built =
    rebuild chart.edges rest (t :: built)
  /-- The visits come to an end, with the tree and nothing else. -/
  ends : Visiting chart.edges [.opening number] [] [t]
  /-- The tree is the result. -/
  result : chart.tree? number = some t

/-- A tree is rebuilt if the edge unfolds into it and recursion gives it. -/
theorem rebuilds_of_treeOf? {t : Tree} (ht : chart.Unfolds number t)
    (htree : treeOf? chart.edges number = some t) : chart.Rebuilds number t where
  unfolds := ⟨ht.unique, fun h => h ▸ ht⟩
  opening rest built := by
    rw [rebuild_opening, htree]
    rfl
  ends := by
    apply visiting_of_rebuild
    rw [rebuild_opening, htree, Option.bind_some, rebuild]
  result := by rw [tree?_eq_treeOf?, htree]

/-! ## Calls -/

section Calls

variable [Cost κ]

/-- Every call uses only edges that have been made before it. -/
def KnowsAll (chart : Chart κ n) : List (Call κ n) → Prop
  | [] => True
  | call :: rest => chart.Knows call ∧ (chart.perform call).KnowsAll rest

instance decidableKnowsAll : (chart : Chart κ n) → (calls : List (Call κ n)) →
    Decidable (chart.KnowsAll calls)
  | _, [] => isTrue trivial
  | chart, call :: rest =>
    have := decidableKnowsAll (chart.perform call) rest
    inferInstanceAs (Decidable (chart.Knows call ∧ (chart.perform call).KnowsAll rest))

/-- A call makes its edge, which gets the next number, or it makes none. -/
theorem edges_perform (chart : Chart κ n) (call : Call κ n) :
    (chart.perform call).edges = chart.edges ∨
      ∃ edge, call.edge? = some edge ∧ (chart.perform call).edges = chart.edges.push edge := by
  cases call with
  | alloc edge => exact .inr ⟨edge, rfl, rfl⟩
  | offer s edge =>
    rw [perform, offer]
    cases chart.improves s edge.label edge.cost with
    | true => exact .inr ⟨edge, rfl, rfl⟩
    | false => exact .inl rfl
  | register s number =>
    refine .inl ?_
    rw [perform, register]
    cases chart.edge? number with
    | none => rfl
    | some edge =>
      dsimp only
      cases chart.improves s edge.label edge.cost <;> rfl
  | index s rules => exact .inl rfl

/-- A call that uses only edges that have been made keeps every edge newer than those below it. -/
theorem Founded.perform (h : chart.Founded) {call : Call κ n} (hcall : chart.Knows call) :
    (chart.perform call).Founded := by
  intro number edge hedge part hp
  rw [edge?] at hedge
  obtain hsame | ⟨made, hmade, hpush⟩ := edges_perform chart call
  · rw [hsame] at hedge
    exact h hedge part hp
  · rw [hpush, Array.getElem?_push] at hedge
    split at hedge
    · rename_i hnew
      obtain rfl := Option.some.inj hedge
      rw [hnew]
      exact hcall made hmade part hp
    · exact h hedge part hp

/-- Calls that use only edges that have been made keep every edge newer than those below it. -/
theorem Founded.performAll (h : chart.Founded) {calls : List (Call κ n)}
    (hcalls : chart.KnowsAll calls) : (chart.performAll calls).Founded := by
  induction calls generalizing chart with
  | nil => exact h
  | cons call rest ih => exact ih (h.perform hcalls.1) hcalls.2

/-- An edge keeps its number whatever is called. -/
theorem edge?_performAll_of_some (calls : List (Call κ n)) {edge : Edge κ}
    (h : chart.edge? number = some edge) : (chart.performAll calls).edge? number = some edge := by
  induction calls generalizing chart with
  | nil => exact h
  | cons call rest ih => exact ih (edge?_perform_of_some call h)

/-- After any calls that use only edges that have been made, every edge is newer than the edges
below it, and its tree is rebuilt: visiting ends, there is always a tree left to close an edge over,
and the result is what the edge unfolds into. This stays so whatever is called afterwards, also when
the edge gives way to a cheaper one. -/
theorem rebuilds_performAll {calls : List (Call κ n)}
    (h : (empty n : Chart κ n).KnowsAll calls) :
    let chart := (empty n : Chart κ n).performAll calls
    chart.Founded ∧ ∀ number < chart.edges.size, ∃ t,
      chart.Rebuilds number t ∧ ∀ more, (chart.performAll more).Rebuilds number t := by
  intro chart
  have hfounded : chart.Founded := founded_empty.performAll h
  refine ⟨hfounded, fun number hlt => ?_⟩
  obtain ⟨t, ht⟩ := hfounded.exists_unfolds hlt
  have htree : treeOf? chart.edges number = some t := hfounded.treeOf?_eq ht
  refine ⟨t, rebuilds_of_treeOf? ht htree, fun more => ?_⟩
  have hmore : ∀ {k : Nat} {edge : Edge κ}, chart.edge? k = some edge →
      (chart.performAll more).edge? k = some edge := edge?_performAll_of_some more
  exact rebuilds_of_treeOf? (ht.mono hmore) (treeOf?_mono hmore htree)

/-- Calls on the chart of one word: the second edge for a noun takes the place of the first, over
which a phrase is made that uses it twice. -/
def twiceCalls : List (Call WholeCost 1) :=
  [.alloc (.word "bye"), .offer onlyWord (.unary "UH" ⟨2⟩ 0), .offer onlyWord (.unary "UH" ⟨1⟩ 0),
    .offer onlyWord (.binary "INTJ" ⟨4⟩ 1 1)]

/-- The phrase is rebuilt from the edge that has given way. -/
theorem twiceCalls_rebuilds :
    (empty 1 : Chart WholeCost 1).KnowsAll twiceCalls ∧
      ((empty 1 : Chart WholeCost 1).performAll twiceCalls).best? onlyWord "UH" = some 2 ∧
      ((empty 1 : Chart WholeCost 1).performAll twiceCalls).Rebuilds 3
        (.node "INTJ" [.node "UH" [.leaf "bye"], .node "UH" [.leaf "bye"]]) := by
  have hknows : (empty 1 : Chart WholeCost 1).KnowsAll twiceCalls := by decide +kernel
  obtain ⟨t, ht, -⟩ := (rebuilds_performAll hknows).2 3 (by decide +kernel)
  have hresult : ((empty 1 : Chart WholeCost 1).performAll twiceCalls).tree? 3 =
      some (.node "INTJ" [.node "UH" [.leaf "bye"], .node "UH" [.leaf "bye"]]) := by
    decide +kernel
  obtain rfl := Option.some.inj (ht.result.symm.trans hresult)
  exact ⟨hknows, by decide +kernel, ht⟩

end Calls

end Chart

end Constituency
