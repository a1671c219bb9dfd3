import Constituency.Proofs.Chart.Offers

/-!
# Trees of edges

A tree is rebuilt by visits of edges, but what comes of it is what recursion on the edges gives
(`tree?_eq_treeOf?`): opening an edge amounts to putting its tree before those that have been built
(`rebuild_opening`). The tree of an edge depends on the edges below it alone, so it stays the same
while a chart grows (`Grows.tree?_eq`). An edge that is made over edges with trees has the tree that
its label makes of them (`tree?_place`).
-/

namespace Constituency

namespace Chart

variable {κ : Type} {n : Nat}

/-- The tree of the derivation that ends with the edge of a number, by recursion on the edges below
it. An edge whose parts are not older than itself has no tree. -/
def treeOf? (edges : Array (Edge κ)) (number : Nat) : Option Tree :=
  match edges[number]? with
  | none => none
  | some (.word text) => some (Tree.leaf text)
  | some (.unary label _ child) =>
    if child < number then (treeOf? edges child).map fun t => Tree.node label [t] else none
  | some (.binary label _ left right) =>
    if left < number then
      if right < number then do
        let l ← treeOf? edges left
        let r ← treeOf? edges right
        return Tree.node label [l, r]
      else none
    else none
termination_by number

/-- Closing an edge over one takes its tree. -/
theorem rebuild_closing_unary {edges : Array (Edge κ)} {number child : Nat} {label : String}
    {cost : κ} (h : edges[number]? = some (.unary label cost child)) (rest : List Visit) (t : Tree)
    (built : List Tree) :
    rebuild edges (.closing number :: rest) (t :: built) =
      rebuild edges rest (.node label [t] :: built) := by
  rw [rebuild.eq_def]
  simp only [h]

/-- Closing an edge over two takes their trees, of which the one on the right was built last. -/
theorem rebuild_closing_binary {edges : Array (Edge κ)} {number left right : Nat} {label : String}
    {cost : κ} (h : edges[number]? = some (.binary label cost left right)) (rest : List Visit)
    (l r : Tree) (built : List Tree) :
    rebuild edges (.closing number :: rest) (r :: l :: built) =
      rebuild edges rest (.node label [l, r] :: built) := by
  rw [rebuild.eq_def]
  simp only [h]

/-- Opening an edge comes to putting its tree before those that have been built, whatever is to be
visited afterwards. -/
theorem rebuild_opening (edges : Array (Edge κ)) (number : Nat) (rest : List Visit)
    (built : List Tree) :
    rebuild edges (.opening number :: rest) built =
      (treeOf? edges number).bind fun t => rebuild edges rest (t :: built) := by
  -- The edges below have lesser numbers, so what opening them comes to is known when the edge is
  -- closed.
  induction number using Nat.strongRecOn generalizing rest built with
  | ind number ih =>
    rw [rebuild, treeOf?]
    cases hedge : edges[number]? with
    | none => rfl
    | some edge =>
      cases edge with
      | word text => rfl
      | unary label cost child =>
        dsimp only
        by_cases hchild : child < number
        · rw [if_pos hchild, if_pos hchild, ih child hchild]
          cases treeOf? edges child with
          | none => rfl
          | some t =>
            rw [Option.bind_some, rebuild_closing_unary hedge]
            rfl
        · rw [if_neg hchild, if_neg hchild]
          rfl
      | binary label cost left right =>
        dsimp only
        by_cases hleft : left < number
        · by_cases hright : right < number
          · simp only [if_pos hleft, if_pos hright]
            rw [ih left hleft]
            cases treeOf? edges left with
            | none => rfl
            | some l =>
              rw [Option.bind_some, ih right hright]
              cases treeOf? edges right with
              | none => rfl
              | some r =>
                rw [Option.bind_some, rebuild_closing_binary hedge]
                rfl
          · simp only [if_pos hleft, if_neg hright]
            rfl
        · rw [if_neg hleft, if_neg hleft]
          rfl

/-- Rebuilding gives the tree of the recursion. -/
theorem tree?_eq_treeOf? (chart : Chart κ n) (number : Nat) :
    chart.tree? number = treeOf? chart.edges number := by
  rw [tree?, rebuild_opening]
  cases treeOf? chart.edges number with
  | none => rfl
  | some t =>
    rw [Option.bind_some, rebuild]
    rfl

/-- The tree that an edge makes of the trees of the edges below it. -/
def treeOver? (chart : Chart κ n) : Edge κ → Option Tree
  | .word text => some (Tree.leaf text)
  | .unary label _ child => (chart.tree? child).map fun t => Tree.node label [t]
  | .binary label _ left right => do
    let l ← chart.tree? left
    let r ← chart.tree? right
    return Tree.node label [l, r]

/-- A number that has a tree is that of an edge. -/
theorem lt_size_of_treeOf? {edges : Array (Edge κ)} {number : Nat} {t : Tree}
    (h : treeOf? edges number = some t) : number < edges.size := by
  unfold treeOf? at h
  split at h
  · exact absurd h.symm (Option.some_ne_none _)
  all_goals
    rename_i he
    exact (Array.getElem?_eq_some_iff.1 he).1

/-- The tree of an edge stays the same when edges are added. -/
theorem treeOf?_mono {edges more : Array (Edge κ)}
    (h : ∀ {k : Nat} {edge : Edge κ}, edges[k]? = some edge → more[k]? = some edge)
    {number : Nat} {t : Tree} (ht : treeOf? edges number = some t) :
    treeOf? more number = some t := by
  -- An edge is made over edges with lesser numbers, which carry the induction.
  induction number using Nat.strongRecOn generalizing t with
  | ind number ih =>
    unfold treeOf? at ht ⊢
    split at ht
    · exact absurd ht.symm (Option.some_ne_none _)
    · rename_i text he
      rw [h he]
      exact ht
    · rename_i label cost child he
      rw [h he]
      split at ht
      · rename_i hc
        obtain ⟨t', ht', rfl⟩ := Option.map_eq_some_iff.1 ht
        simp only [if_pos hc, ih child hc ht', Option.map_some]
      · exact absurd ht.symm (Option.some_ne_none _)
    · rename_i label cost left right he
      rw [h he]
      split at ht
      · rename_i hl
        split at ht
        · rename_i hr
          obtain ⟨l, hl', ht⟩ := Option.bind_eq_some_iff.1 ht
          obtain ⟨r, hr', ht⟩ := Option.bind_eq_some_iff.1 ht
          simp only [if_pos hl, if_pos hr, ih left hl hl', ih right hr hr']
          exact ht
        · exact absurd ht.symm (Option.some_ne_none _)
      · exact absurd ht.symm (Option.some_ne_none _)

/-- The tree of an edge stays the same while a chart grows. -/
theorem Grows.tree?_eq {s : Span n} {a b : Chart κ n} (h : a.Grows s b) {number : Nat} {t : Tree}
    (ht : a.tree? number = some t) : b.tree? number = some t := by
  rw [tree?_eq_treeOf?] at ht ⊢
  exact treeOf?_mono h.edge ht

/-- The tree that an edge makes stays the same while a chart grows. -/
theorem Grows.treeOver?_eq {s : Span n} {a b : Chart κ n} (h : a.Grows s b) {edge : Edge κ}
    {t : Tree} (ht : a.treeOver? edge = some t) : b.treeOver? edge = some t := by
  cases edge with
  | word text => exact ht
  | unary label cost child =>
    obtain ⟨t', ht', rfl⟩ := Option.map_eq_some_iff.1 ht
    rw [treeOver?, h.tree?_eq ht']
    rfl
  | binary label cost left right =>
    obtain ⟨l, hl, ht⟩ := Option.bind_eq_some_iff.1 ht
    obtain ⟨r, hr, ht⟩ := Option.bind_eq_some_iff.1 ht
    rw [treeOver?, h.tree?_eq hl, h.tree?_eq hr]
    exact ht

/-- The tree of an edge that has just been made. -/
theorem tree?_alloc {chart : Chart κ n} {edge : Edge κ} {t : Tree}
    (h : chart.treeOver? edge = some t) :
    (chart.alloc edge).1.tree? chart.edges.size = some t := by
  -- The edges below are older, so their trees are those of the chart before.
  have hmono {number : Nat} {t : Tree} (ht : chart.tree? number = some t) :
      number < chart.edges.size ∧ treeOf? (chart.alloc edge).1.edges number = some t := by
    rw [tree?_eq_treeOf?] at ht
    exact ⟨lt_size_of_treeOf? ht, treeOf?_mono (fun he => edge?_alloc_of_some he edge) ht⟩
  have hnew : (chart.alloc edge).1.edges[chart.edges.size]? = some edge :=
    Array.getElem?_push_size
  rw [tree?_eq_treeOf?, treeOf?, hnew]
  cases edge with
  | word text => exact h
  | unary label cost child =>
    obtain ⟨t', ht', rfl⟩ := Option.map_eq_some_iff.1 h
    obtain ⟨hlt, htree⟩ := hmono ht'
    simp only [if_pos hlt, htree, Option.map_some]
  | binary label cost left right =>
    obtain ⟨l, hl, h⟩ := Option.bind_eq_some_iff.1 h
    obtain ⟨r, hr, h⟩ := Option.bind_eq_some_iff.1 h
    obtain ⟨hltl, htreel⟩ := hmono hl
    obtain ⟨hltr, htreer⟩ := hmono hr
    simp only [if_pos hltl, if_pos hltr, htreel, htreer]
    exact h

/-- The tree of an edge that has just been placed. -/
theorem tree?_place {chart : Chart κ n} {edge : Edge κ} {t : Tree} (s : Span n)
    (h : chart.treeOver? edge = some t) :
    (chart.place s edge).1.tree? chart.edges.size = some t := tree?_alloc h

end Chart

end Constituency
