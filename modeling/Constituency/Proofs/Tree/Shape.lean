import Constituency.Training
import Mathlib.Data.List.Basic

/-!
# Trees of the right shape

A tree that passes the check for training is no single word, and every node of it that is no word
stands either over one word or over nodes that are no words (`Shaped`). The rules of such a tree are
those of the nodes that are no words (`exists_of_mem_rulesFrom`, `Subtree.ruleAt_mem`).
-/

namespace Constituency.Tree

/-- What holds of a tree if it holds of its children holds of all trees. -/
@[elab_as_elim]
theorem induction {motive : Tree → Prop}
    (node : ∀ label children, (∀ c ∈ children, motive c) → motive (node label children))
    (t : Tree) : motive t := by
  obtain ⟨label, children⟩ := t
  exact node label children fun c hc => induction node c
termination_by t
decreasing_by
  have hlt := List.sizeOf_lt_of_mem hc
  simp only [Tree.node.sizeOf_spec]
  omega

/-- A tree stands somewhere in another one. -/
inductive Subtree : Tree → Tree → Prop where
  /-- A tree in itself. -/
  | refl (t : Tree) : Subtree t t
  /-- A tree in a child of a node. -/
  | child {t c : Tree} {label : String} {children : List Tree} (mem : c ∈ children)
      (below : Subtree t c) : Subtree t (node label children)

/-- What stands in a tree that stands in a third one stands in that. -/
theorem Subtree.trans {a b c : Tree} (h : a.Subtree b) (h' : b.Subtree c) : a.Subtree c := by
  induction h' with
  | refl => exact h
  | child mem _ ih => exact .child mem ih

/-- All labels of a tree have a property. -/
inductive AllLabels (P : String → Prop) : Tree → Prop where
  /-- The label of the root does, and all labels below it. -/
  | node {label : String} {children : List Tree} (here : P label)
      (below : ∀ c ∈ children, AllLabels P c) : AllLabels P (node label children)

/-- The labels of a tree in another one are among the labels of that. -/
theorem AllLabels.subtree {P : String → Prop} {t u : Tree} (h : t.AllLabels P)
    (hu : u.Subtree t) : u.AllLabels P := by
  induction hu with
  | refl => exact h
  | child mem _ ih =>
    cases h with
    | node _ below => exact ih (below _ mem)

/-- The label of the root is one of the labels. -/
theorem AllLabels.root {P : String → Prop} {t : Tree} (h : t.AllLabels P) : P t.label := by
  cases h with
  | node here _ => exact here

/-- Labels that have a property have any that follows from it. -/
theorem AllLabels.mono {P Q : String → Prop} (hle : ∀ label, P label → Q label) {t : Tree}
    (h : t.AllLabels P) : t.AllLabels Q := by
  induction h with
  | node here _ ih => exact .node (hle _ here) ih

/-! ## The shape -/

/-- A tree that is no single word and in which every node stands over one word, or over nodes that
are no words. -/
inductive Shaped : Tree → Prop where
  /-- A part of speech over a word. -/
  | preTerminal {tag word : String} : Shaped (node tag [leaf word])
  /-- A category over such trees. -/
  | internal {label : String} {children : List Tree} (ne : children ≠ [])
      (below : ∀ c ∈ children, Shaped c) : Shaped (node label children)

/-- A tree of the right shape is more than a word. -/
theorem Shaped.isLeaf {t : Tree} (h : t.Shaped) : t.isLeaf = false := by
  cases h with
  | preTerminal => rfl
  | internal ne _ => exact List.isEmpty_eq_false_iff.2 ne

/-- A node of a tree of the right shape stands over nodes that are no words, or over one word. -/
theorem Shaped.children {t : Tree} (h : t.Shaped) :
    (∀ c ∈ t.children, c.isLeaf = false) ∨ ∃ word, t.children = [leaf word] := by
  cases h with
  | @preTerminal _ word => exact Or.inr ⟨word, rfl⟩
  | internal _ below => exact Or.inl fun c hc => (below c hc).isLeaf

/-- What stands in a tree of the right shape and is no word has the right shape too. -/
theorem Shaped.subtree {t u : Tree} (h : t.Shaped) (hu : u.Subtree t) (hleaf : u.isLeaf = false) :
    u.Shaped := by
  induction hu with
  | refl => exact h
  | @child c label children mem below ih =>
    cases h with
    | internal _ hbelow => exact ih (hbelow _ mem)
    | preTerminal =>
      -- Nothing stands in a word but the word itself.
      obtain rfl := List.mem_singleton.1 mem
      cases below with
      | refl => exact absurd hleaf nofun
      | child mem _ => exact absurd mem List.not_mem_nil

/-- A node has no fault exactly if none of its children is a word, or its only child is one. -/
theorem nodeFault?_eq_none_iff {label : String} {children : List Tree} :
    nodeFault? label children = none ↔
      (∀ c ∈ children, c.isLeaf = false) ∨ ∃ word, children = [leaf word] := by
  unfold nodeFault?
  constructor
  · intro hfault
    by_cases hzero : children.countP isLeaf = 0
    · exact Or.inl fun c hc => Bool.eq_false_iff.2 (List.countP_eq_zero.1 hzero c hc)
    · -- There is a word, so all children are words, and there are not several.
      have hle := List.countP_le_length (p := isLeaf) (l := children)
      have hone : children.length = 1 ∧ children.countP isLeaf = 1 := by
        simp only [Bool.and_eq_true, decide_eq_true_eq] at hfault
        split at hfault
        · exact absurd hfault nofun
        · split at hfault
          · exact absurd hfault nofun
          · omega
      obtain ⟨c, rfl⟩ := List.length_eq_one_iff.1 hone.1
      have hleaf : c.isLeaf = true :=
        List.countP_eq_length.1 (hone.2.trans hone.1.symm) c List.mem_cons_self
      obtain ⟨word, below⟩ := c
      obtain rfl : below = [] := List.isEmpty_iff.1 hleaf
      exact Or.inr ⟨word, rfl⟩
  · rintro (hnone | ⟨word, rfl⟩)
    · have hzero : children.countP isLeaf = 0 :=
        List.countP_eq_zero.2 fun c hc => Bool.eq_false_iff.1 (hnone c hc)
      simp [hzero]
    · rfl

/-- A list of trees is without a fault exactly if those of them are that are no words. -/
theorem faultOfAll?_eq_none_iff {ts : List Tree} :
    faultOfAll? ts = none ↔ ∀ c ∈ ts, c.isLeaf = false → c.fault? = none := by
  induction ts with
  | nil => exact ⟨fun _ c hc => absurd hc List.not_mem_nil, fun _ => rfl⟩
  | cons t rest ih =>
    rw [faultOfAll?, Option.orElse_eq_orElse, Option.orElse_eq_or, Option.or_eq_none_iff, ih,
      List.forall_mem_cons, and_comm]
    cases t.isLeaf <;> simp

/-- A tree that is no word is without a fault exactly if it has the right shape. -/
theorem fault?_eq_none_iff {t : Tree} (hleaf : t.isLeaf = false) : t.fault? = none ↔ t.Shaped := by
  induction t using Tree.induction with
  | node label children ih =>
    rw [fault?, Option.orElse_eq_orElse, Option.orElse_eq_or, Option.or_eq_none_iff,
      nodeFault?_eq_none_iff, faultOfAll?_eq_none_iff]
    constructor
    · rintro ⟨hnone | ⟨word, rfl⟩, hbelow⟩
      · refine .internal (List.isEmpty_eq_false_iff.1 hleaf) fun c hc => ?_
        exact (ih c hc (hnone c hc)).1 (hbelow c hc (hnone c hc))
      · exact .preTerminal
    · intro h
      cases h with
      | @preTerminal _ word =>
        refine ⟨Or.inr ⟨word, rfl⟩, fun c hc hcl => ?_⟩
        obtain rfl := List.mem_singleton.1 hc
        exact absurd hcl nofun
      | internal _ below =>
        exact ⟨Or.inl fun c hc => (below c hc).isLeaf,
          fun c hc hcl => (ih c hc hcl).2 (below c hc)⟩

/-- A tree passes the check exactly if it has the right shape. -/
theorem validate_eq_ok_iff {t : Tree} : t.validate = .ok () ↔ t.Shaped := by
  unfold validate
  cases hleaf : t.isLeaf with
  | true => exact ⟨nofun, fun h => absurd (hleaf.symm.trans h.isLeaf) nofun⟩
  | false =>
    rw [← fault?_eq_none_iff hleaf, if_neg Bool.false_ne_true]
    cases t.fault? with
    | none => exact ⟨fun _ => rfl, fun _ => rfl⟩
    | some error => exact ⟨nofun, nofun⟩

/-- A tree that passes the check has the right shape. -/
theorem shaped_of_validate {t : Tree} (h : t.validate = .ok ()) : t.Shaped :=
  validate_eq_ok_iff.1 h

/-- A tree of the right shape has a part of speech over a word. -/
theorem Shaped.exists_preTerminal {t : Tree} (h : t.Shaped) :
    ∃ tag word, (node tag [leaf word]).Subtree t := by
  induction h with
  | @preTerminal tag word => exact ⟨tag, word, .refl _⟩
  | @internal label children ne _ ih =>
    obtain ⟨c, hc⟩ := List.exists_mem_of_ne_nil children ne
    obtain ⟨tag, word, hsub⟩ := ih c hc
    exact ⟨tag, word, .child hc hsub⟩

/-! ## The rules of a tree -/

variable {κ : Type} [Cost κ]

/-- The rule that a node makes of its label and those of its children. -/
def ruleAt (top : Bool) (t : Tree) : Rule κ :=
  ⟨Side.single t.label, ⟨t.children.map label⟩, 0, t.isPreTerminal, top⟩

/-- The rules of a list of trees are those of the trees. -/
theorem mem_rulesFromAll {ts : List Tree} {rule : Rule κ} :
    rule ∈ rulesFromAll ts ↔ ∃ t ∈ ts, rule ∈ t.rulesFrom false := by
  induction ts with
  | nil => simp [rulesFromAll]
  | cons t rest ih => rw [rulesFromAll, List.mem_append, ih, List.exists_mem_cons_iff]

/-- The rules of a tree are that of its root and those of its children. -/
theorem mem_rulesFrom {top : Bool} {label : String} {children : List Tree} (hne : children ≠ [])
    {rule : Rule κ} :
    rule ∈ (node label children).rulesFrom top ↔
      rule = ruleAt top (node label children) ∨ ∃ c ∈ children, rule ∈ c.rulesFrom false := by
  cases children with
  | nil => exact absurd rfl hne
  | cons child rest =>
    rw [rulesFrom, List.mem_cons, List.mem_append, mem_rulesFromAll, List.exists_mem_cons_iff]
    rfl

/-- A rule of a tree is that of a node in it that is no word. -/
theorem exists_of_mem_rulesFrom {top : Bool} {t : Tree} {rule : Rule κ} :
    rule ∈ t.rulesFrom top → ∃ u mark, u.Subtree t ∧ u.isLeaf = false ∧ rule = ruleAt mark u := by
  intro h
  induction t using Tree.induction generalizing top with
  | node label children ih =>
    by_cases hne : children = []
    · subst hne
      rw [rulesFrom] at h
      exact absurd h List.not_mem_nil
    · rcases (mem_rulesFrom hne).1 h with rfl | ⟨c, hc, h⟩
      · exact ⟨_, top, .refl _, List.isEmpty_eq_false_iff.2 hne, rfl⟩
      · obtain ⟨u, mark, hsub, hleaf, rfl⟩ := ih c hc h
        exact ⟨u, mark, .child hc hsub, hleaf, rfl⟩

/-- The rule of a node that is no word is one of the rules of the tree. -/
theorem Subtree.ruleAt_mem {t u : Tree} (h : u.Subtree t) (hleaf : u.isLeaf = false) (top : Bool) :
    ∃ mark, (ruleAt mark u : Rule κ) ∈ t.rulesFrom top := by
  induction h generalizing top with
  | refl =>
    obtain ⟨label, children⟩ := u
    exact ⟨top, (mem_rulesFrom (List.isEmpty_eq_false_iff.1 hleaf)).2 (Or.inl rfl)⟩
  | child mem _ ih =>
    obtain ⟨mark, hmem⟩ := ih false
    exact ⟨mark, (mem_rulesFrom (List.ne_nil_of_mem mem)).2 (Or.inr ⟨_, mem, hmem⟩)⟩

end Constituency.Tree
