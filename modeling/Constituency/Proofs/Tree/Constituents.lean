import Constituency.Proofs.Tree.Splice

/-!
# The constituents of a tree

A constituent is a label with the words that it stands over, given by the positions between which
they lie. A tree is known by its constituents in pre-order (`constituents_inj`). What removing the
introduced nodes does to a tree can therefore be said of the constituents alone: the root and the
words stay, and of the others those whose labels do not bear the mark, each over the words that it
stood over before (`constituents_debinarize`).
-/

namespace Constituency

/-- A node of a tree, seen by its label and by the words below it. -/
structure Constituent where
  /-- The label; that of a word is the word itself. -/
  label : String
  /-- The position of the first word. -/
  start : Nat
  /-- The position after the last word. -/
  stop : Nat
  /-- The node is a word. -/
  isWord : Bool
  deriving DecidableEq

/-- Whether a constituent below the root is left when the introduced ones are removed. -/
def Constituent.stays (c : Constituent) : Bool := c.isWord || !Markovization.isMarked c.label

namespace Tree

open Markovization (isMarked)

mutual

/-- The constituents of a tree in pre-order, where the first word stands at the position `start`. -/
def constituentsFrom (start : Nat) : Tree → List Constituent
  | node label children =>
    ⟨label, start, start + (node label children).words.length, children.isEmpty⟩ ::
      constituentsFromAll start children

/-- The constituents of a list of trees, whose words follow each other. -/
def constituentsFromAll (start : Nat) : List Tree → List Constituent
  | [] => []
  | t :: rest => t.constituentsFrom start ++ constituentsFromAll (start + t.words.length) rest

end

/-- The constituents of a tree in pre-order, the root first. -/
def constituents (t : Tree) : List Constituent := t.constituentsFrom 0

/-- The trees of a second list begin where the words of the first one end. -/
theorem constituentsFromAll_append (start : Nat) (ts us : List Tree) :
    constituentsFromAll start (ts ++ us) = constituentsFromAll start ts ++
      constituentsFromAll (start + (wordsOfAll ts).length) us := by
  induction ts generalizing start with
  | nil => rfl
  | cons t rest ih =>
    rw [List.cons_append, constituentsFromAll, constituentsFromAll, ih, List.append_assoc,
      wordsOfAll, List.length_append, Nat.add_assoc]

/-- The constituents of a single tree. -/
theorem constituentsFromAll_singleton (start : Nat) (t : Tree) :
    constituentsFromAll start [t] = t.constituentsFrom start := by
  rw [constituentsFromAll, constituentsFromAll, List.append_nil]

/-- The constituents of a tree are the root and those below it. -/
theorem constituentsFrom_eq (start : Nat) (t : Tree) :
    t.constituentsFrom start = ⟨t.label, start, start + t.words.length, t.isLeaf⟩ ::
      constituentsFromAll start t.children := by
  cases t
  rfl

/-! ## A tree is known by its constituents -/

/-- A list of trees has words if there are trees. -/
theorem length_wordsOfAll_pos {ts : List Tree} (h : ts ≠ []) : 0 < (wordsOfAll ts).length := by
  obtain ⟨t, rest, rfl⟩ := List.exists_cons_of_ne_nil h
  rw [wordsOfAll, List.length_append]
  have := List.length_pos_iff.2 t.words_ne_nil
  omega

/-- Constituents that begin with those of a tree tell the tree. -/
def Recoverable (t : Tree) : Prop :=
  ∀ {u : Tree} {start : Nat} {after other : List Constituent},
    t.constituentsFrom start ++ after = u.constituentsFrom start ++ other → t = u ∧ after = other

/-- Constituents that begin with those of trees tell the trees, if it is known over how many words
these stand. -/
theorem eq_of_constituentsFromAll_append {ts us : List Tree} (hts : ∀ t ∈ ts, t.Recoverable)
    {start : Nat} {after other : List Constituent}
    (hlength : (wordsOfAll ts).length = (wordsOfAll us).length)
    (h : constituentsFromAll start ts ++ after = constituentsFromAll start us ++ other) :
    ts = us ∧ after = other := by
  induction ts generalizing us start with
  | nil =>
    have hus : us = [] := by
      by_contra hne
      have hpos := length_wordsOfAll_pos hne
      simp only [wordsOfAll, List.length_nil] at hlength
      omega
    subst hus
    exact ⟨rfl, h⟩
  | cons t ts ih =>
    have hne : us ≠ [] := by
      rintro rfl
      have hpos := length_wordsOfAll_pos (List.cons_ne_nil t ts)
      rw [hlength] at hpos
      exact absurd hpos (Nat.lt_irrefl 0)
    obtain ⟨u, us, rfl⟩ := List.exists_cons_of_ne_nil hne
    rw [constituentsFromAll, constituentsFromAll, List.append_assoc, List.append_assoc] at h
    obtain ⟨rfl, hrest⟩ := hts t List.mem_cons_self h
    have hlength' : (wordsOfAll ts).length = (wordsOfAll us).length := by
      simp only [wordsOfAll, List.length_append] at hlength
      omega
    obtain ⟨rfl, hafter⟩ := ih (fun v hv => hts v (List.mem_cons_of_mem t hv)) hlength' hrest
    exact ⟨rfl, hafter⟩

/-- The number of words of a node tells where its children end, so every tree is told. -/
theorem recoverable (t : Tree) : t.Recoverable := by
  induction t using Tree.induction with
  | node label children ih =>
    intro u start after other h
    obtain ⟨label', children'⟩ := u
    simp only [constituentsFrom_eq, List.cons_append, List.cons.injEq, Constituent.mk.injEq,
      true_and] at h
    obtain ⟨⟨hlabel, hstop, hleaf⟩, hbelow⟩ := h
    obtain rfl : label = label' := hlabel
    have hlength : (wordsOfAll children).length = (wordsOfAll children').length := by
      by_cases hnil : children = []
      · subst hnil
        obtain rfl : children' = [] := List.isEmpty_iff.1 hleaf.symm
        rfl
      · have hnil' : children' ≠ [] := by
          rintro rfl
          exact hnil (List.isEmpty_iff.1 hleaf)
        rw [words_node hnil, words_node hnil'] at hstop
        omega
    obtain ⟨rfl, hafter⟩ := eq_of_constituentsFromAll_append ih hlength hbelow
    exact ⟨rfl, hafter⟩

/-- A tree is known by its constituents. -/
theorem constituents_inj {t u : Tree} (h : t.constituents = u.constituents) : t = u := by
  have happend : t.constituentsFrom 0 ++ [] = u.constituentsFrom 0 ++ [] := congrArg (· ++ []) h
  exact (t.recoverable happend).1

/-! ## Removing introduced nodes -/

/-- The constituents of a tree that is restored: the root, and what there is below it then. -/
theorem constituentsFrom_debinarize (start : Nat) (t : Tree) :
    t.debinarize.constituentsFrom start = ⟨t.label, start, start + t.words.length, t.isLeaf⟩ ::
      constituentsFromAll start (debinarizeAll t.children) := by
  rw [constituentsFrom_eq, label_debinarize, words_debinarize, isLeaf_debinarize]
  cases t
  rfl

/-- A tree whose root stays is replaced by what is restored of it. -/
theorem spliced_debinarize_of_stays {t : Tree} (h : (t.isLeaf || !isMarked t.label) = true) :
    t.debinarize.spliced = [t.debinarize] := by
  rw [Bool.or_eq_true, Bool.not_eq_true'] at h
  rcases h with hleaf | hmark
  · exact spliced_of_isLeaf (by rw [isLeaf_debinarize, hleaf])
  · exact spliced_of_unmarked (by rw [label_debinarize, hmark])

/-- A tree whose root does not stay is replaced by its children as they are restored. -/
theorem spliced_debinarize_of_not_stays {t : Tree}
    (h : (t.isLeaf || !isMarked t.label) = false) :
    t.debinarize.spliced = debinarizeAll t.children := by
  rw [Bool.or_eq_false_iff, Bool.not_eq_false'] at h
  rw [spliced_of_marked (by rw [isLeaf_debinarize, h.1]) (by rw [label_debinarize, h.2])]
  cases t
  rfl

mutual

/-- The constituents in the place of a tree are those of the tree that stay, over the same words. -/
theorem constituentsFromAll_spliced (start : Nat) : (t : Tree) →
    constituentsFromAll start t.debinarize.spliced =
      (t.constituentsFrom start).filter Constituent.stays
  | node label children => by
    have hbelow : constituentsFromAll start (debinarizeAll children) =
        (constituentsFromAll start children).filter Constituent.stays :=
      constituentsFromAll_debinarizeAll start children
    rw [constituentsFrom_eq, List.filter_cons, Constituent.stays]
    cases hstays : (node label children).isLeaf || !isMarked (node label children).label with
    | true =>
      rw [spliced_debinarize_of_stays hstays, constituentsFromAll_singleton,
        constituentsFrom_debinarize, if_pos rfl]
      exact congrArg _ hbelow
    | false =>
      rw [spliced_debinarize_of_not_stays hstays, if_neg Bool.false_ne_true]
      exact hbelow

/-- The constituents of restored children are those of the children that stay. -/
theorem constituentsFromAll_debinarizeAll (start : Nat) : (ts : List Tree) →
    constituentsFromAll start (debinarizeAll ts) =
      (constituentsFromAll start ts).filter Constituent.stays
  | [] => rfl
  | t :: rest => by
    have hlength : (wordsOfAll t.debinarize.spliced).length = t.words.length := by
      rw [wordsOfAll_eq_flatMap, flatMap_words_spliced, words_debinarize]
    rw [debinarizeAll, constituentsFromAll_append, hlength, constituentsFromAll_spliced start t,
      constituentsFromAll_debinarizeAll _ rest, constituentsFromAll, List.filter_append]

end

/-- Removing the introduced nodes keeps the root, the words, and those of the other constituents
that are words or whose labels do not bear the mark, each over the words that it stood over. This
tells the tree, and removing once more changes nothing. -/
theorem constituents_debinarize (t : Tree) :
    t.debinarize.label = t.label ∧ t.debinarize.words = t.words ∧
      t.debinarize.constituents =
        t.constituents.take 1 ++ (t.constituents.drop 1).filter Constituent.stays ∧
      (∀ u : Tree, u = t.debinarize ↔ u.constituents = t.debinarize.constituents) ∧
      t.debinarize.debinarize = t.debinarize := by
  refine ⟨label_debinarize t, words_debinarize t, ?_, fun u => ⟨?_, constituents_inj⟩,
    (unmarked_debinarize t).debinarize⟩
  · unfold constituents
    rw [constituentsFrom_debinarize, constituentsFromAll_debinarizeAll, constituentsFrom_eq]
    rfl
  · rintro rfl
    rfl

/-- Nodes in a row give way, one below the other, and the word that holds the mark stays. -/
example :
    (node "S@" [node "A" [leaf "a"], node "[A]@S" [node "[]@S" [leaf "b@"], leaf "c"]]).debinarize =
      node "S@" [node "A" [leaf "a"], leaf "b@", leaf "c"] := by decide +kernel

end Tree

end Constituency
