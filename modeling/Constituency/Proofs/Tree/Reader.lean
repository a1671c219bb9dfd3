import Constituency.Proofs.Text.Words
import Constituency.Proofs.Tree.Shape
import Constituency.Treebank

/-!
# Labels of trees that have been read

A label is read from a run of characters that are neither blanks nor parentheses, so all labels of
the trees of a treebank are such runs (`areAtoms_of_mem_trees`), and in particular they are words
(`allLabels_of_mem_trees`).
-/

namespace Constituency

open Text (IsWord)

namespace Tree

/-- A character that goes on a word in brackets: it is neither a blank nor a parenthesis. -/
structure IsPlain (c : Char) : Prop where
  /-- It is no blank. -/
  blank : Text.isBlank c = false
  /-- It opens nothing. -/
  opening : c ≠ '('
  /-- It closes nothing. -/
  closing : c ≠ ')'

instance (c : Char) : Decidable (IsPlain c) :=
  decidable_of_iff (Text.isBlank c = false ∧ c ≠ '(' ∧ c ≠ ')')
    ⟨fun h => ⟨h.1, h.2.1, h.2.2⟩, fun h => ⟨h.blank, h.opening, h.closing⟩⟩

/-- A text that can be a label or a word in brackets: it is not empty, and it holds neither blanks
nor parentheses. -/
structure IsAtom (text : String) : Prop where
  /-- There is a character. -/
  ne_nil : text.toList ≠ []
  /-- Every character goes on a word. -/
  plain : ∀ c ∈ text.toList, IsPlain c

/-- Whether a text can be a label, as a condition that can be evaluated. -/
theorem isAtom_iff {text : String} :
    IsAtom text ↔ text.toList ≠ [] ∧ text.toList.all (fun c => decide (IsPlain c)) = true := by
  simp only [List.all_eq_true, decide_eq_true_eq]
  exact ⟨fun h => ⟨h.ne_nil, h.plain⟩, fun h => ⟨h.1, h.2⟩⟩

instance (text : String) : Decidable (IsAtom text) := decidable_of_iff' _ isAtom_iff

/-- What can be a label can be a word. -/
theorem IsAtom.isWord {text : String} (h : IsAtom text) : IsWord text :=
  ⟨h.ne_nil, fun c hc => (h.plain c hc).blank⟩

/-- What is placed as a word after characters that go on a word is one. -/
theorem isAtom_of_mem_placedWord {start position : Nat} {taken : List Char} {text : String}
    (htaken : ∀ c ∈ taken, IsPlain c) (h : ⟨position, .word text⟩ ∈ placedWord start taken) :
    IsAtom text := by
  cases taken with
  | nil => exact absurd h List.not_mem_nil
  | cons c rest =>
    have he := List.mem_singleton.1 (h : _ ∈ [_])
    have htext : text = String.ofList (c :: rest).reverse := Token.word.inj (Placed.mk.inj he).2
    have hlist : text.toList = (c :: rest).reverse := by rw [htext, String.toList_ofList]
    refine ⟨?_, fun d hd => htaken d ?_⟩
    · rw [hlist, ne_eq, List.reverse_eq_nil_iff]
      exact List.cons_ne_nil c rest
    · rw [hlist] at hd
      exact List.mem_reverse.1 hd

/-- The words among the tokens of a text hold neither blanks nor parentheses. -/
theorem isAtom_of_mem_tokensFrom {chars : List Char} {start position place : Nat}
    {taken : List Char} {text : String} (htaken : ∀ c ∈ taken, IsPlain c)
    (h : ⟨place, .word text⟩ ∈ tokensFrom start taken position chars) : IsAtom text := by
  have hnil : ∀ c ∈ ([] : List Char), IsPlain c := fun c hc => absurd hc List.not_mem_nil
  induction chars generalizing start position taken with
  | nil => exact isAtom_of_mem_placedWord htaken h
  | cons c rest ih =>
    rw [tokensFrom] at h
    split at h
    · rcases List.mem_append.1 h with h | h
      · exact isAtom_of_mem_placedWord htaken h
      · rcases List.mem_cons.1 h with h | h
        · exact absurd (Placed.mk.inj h).2 nofun
        · exact ih hnil h
    · rename_i hopening
      split at h
      · rcases List.mem_append.1 h with h | h
        · exact isAtom_of_mem_placedWord htaken h
        · rcases List.mem_cons.1 h with h | h
          · exact absurd (Placed.mk.inj h).2 nofun
          · exact ih hnil h
      · rename_i hclosing
        split at h
        · rcases List.mem_append.1 h with h | h
          · exact isAtom_of_mem_placedWord htaken h
          · exact ih hnil h
        · rename_i hblank
          refine ih (fun d hd => ?_) h
          rcases List.mem_cons.1 hd with rfl | hd
          · exact ⟨Bool.eq_false_iff.2 hblank, hopening, hclosing⟩
          · exact htaken d hd

/-- The label of an open node, and those of its children so far, hold neither blanks nor
parentheses. -/
structure OpenNode.Plain (inner : OpenNode) : Prop where
  /-- The label, if there is one. -/
  label : ∀ {label : String}, inner.label = some label → IsAtom label
  /-- The children. -/
  children : ∀ c ∈ inner.children, c.AllLabels IsAtom

/-- One more child with such labels. -/
theorem OpenNode.Plain.push {inner : OpenNode} (h : inner.Plain) {child : Tree}
    (hc : child.AllLabels IsAtom) : (inner.push child).Plain := by
  refine ⟨h.label, fun c hmem => ?_⟩
  rcases List.mem_cons.1 hmem with rfl | hmem
  · exact hc
  · exact h.children c hmem

/-- The tree that an open node is closed to has such labels. -/
theorem OpenNode.Plain.close {inner : OpenNode} (h : inner.Plain) {position : Nat} {t : Tree}
    (ht : inner.close position = .ok t) : t.AllLabels IsAtom := by
  unfold OpenNode.close at ht
  split at ht
  · obtain rfl := Except.ok.inj ht
    exact h.children _ List.mem_cons_self
  · exact absurd ht nofun
  · exact absurd ht nofun
  · obtain rfl := Except.ok.inj ht
    exact .node (h.label rfl) fun c hc => h.children c (List.mem_reverse.1 hc)

/-- If the words among the tokens hold neither blanks nor parentheses, nor do the labels of the tree
that is read. -/
theorem areAtoms_of_readTokens {size : Nat} {nodes : List OpenNode} {placed : List Placed}
    (hnodes : ∀ inner ∈ nodes, inner.Plain)
    (hplaced : ∀ {place : Nat} {text : String}, ⟨place, .word text⟩ ∈ placed → IsAtom text)
    {t : Tree} (h : readTokens size nodes placed = .ok t) : t.AllLabels IsAtom := by
  fun_induction readTokens size nodes placed with
  | case1 => exact absurd h nofun
  | case2 nodes _ _ label rest ih =>
    -- An opening parenthesis and a label: a node is opened under that label.
    refine ih (fun inner hi => ?_) (fun hm => hplaced (List.mem_cons_of_mem _
      (List.mem_cons_of_mem _ hm))) h
    rcases List.mem_cons.1 hi with rfl | hi
    · refine ⟨fun hl => ?_, fun c hc => absurd hc List.not_mem_nil⟩
      obtain rfl := Option.some.inj hl
      exact hplaced (List.mem_cons_of_mem _ List.mem_cons_self)
    · exact hnodes inner hi
  | case3 nodes _ next rest ih =>
    -- An opening parenthesis alone: a node is opened without a label.
    refine ih (fun inner hi => ?_) (fun hm => hplaced (List.mem_cons_of_mem _ hm)) h
    rcases List.mem_cons.1 hi with rfl | hi
    · exact ⟨nofun, fun c hc => absurd hc List.not_mem_nil⟩
    · exact hnodes inner hi
  | case4 => exact absurd h nofun
  | case5 => exact absurd h nofun
  | case6 => exact absurd h nofun
  | case7 inner position t' hclose =>
    -- The last closing parenthesis: the tree is read.
    obtain rfl := Except.ok.inj h
    exact (hnodes inner List.mem_cons_self).close hclose
  | case8 => exact absurd h nofun
  | case9 => exact absurd h nofun
  | case10 inner outer nodes position rest t' hclose ih =>
    -- Any other closing parenthesis: the node becomes a child of the one around it.
    have hchild := (hnodes inner List.mem_cons_self).close hclose
    refine ih (fun other ho => ?_) (fun hm => hplaced (List.mem_cons_of_mem _ hm)) h
    rcases List.mem_cons.1 ho with rfl | ho
    · exact (hnodes outer (List.mem_cons_of_mem _ List.mem_cons_self)).push hchild
    · exact hnodes other (List.mem_cons_of_mem _ (List.mem_cons_of_mem _ ho))
  | case11 => exact absurd h nofun
  | case12 inner nodes _ text rest ih =>
    -- A word becomes a child of the innermost node.
    have hword : (leaf text).AllLabels IsAtom :=
      .node (hplaced List.mem_cons_self) fun c hc => absurd hc List.not_mem_nil
    refine ih (fun other ho => ?_) (fun hm => hplaced (List.mem_cons_of_mem _ hm)) h
    rcases List.mem_cons.1 ho with rfl | ho
    · exact (hnodes inner List.mem_cons_self).push hword
    · exact hnodes other (List.mem_cons_of_mem _ ho)

/-- The labels of a tree that is read from a text hold neither blanks nor parentheses. -/
theorem areAtoms_of_read {text : String} {t : Tree} (h : read text = .ok t) :
    t.AllLabels IsAtom := by
  have htokens : ∀ {place : Nat} {word : String}, ⟨place, .word word⟩ ∈ tokens text →
      IsAtom word :=
    fun hm => isAtom_of_mem_tokensFrom (fun c hc => absurd hc List.not_mem_nil) hm
  unfold read at h
  split at h
  · exact absurd h nofun
  · exact areAtoms_of_readTokens (fun inner hi => absurd hi List.not_mem_nil) htokens h

end Tree

namespace Treebank

/-- The trees of sorted results are those that could be read. -/
theorem mem_trees_ofResults {results : List (Except Reject Tree)} {t : Tree} :
    t ∈ (ofResults results).trees ↔ .ok t ∈ results := by
  fun_induction ofResults results with
  | case1 => simp
  | case2 t' rest bank ih =>
    rw [List.mem_cons, List.mem_cons, ih, Except.ok.injEq]
  | case3 reject rest bank ih =>
    rw [List.mem_cons, ih]
    simp

/-- The labels of the trees of a treebank hold neither blanks nor parentheses. -/
theorem areAtoms_of_mem_trees {text : String} {t : Tree} (h : t ∈ (read text).trees) :
    t.AllLabels Tree.IsAtom := by
  rw [read, mem_trees_ofResults] at h
  obtain ⟨item, -, hitem⟩ := List.mem_map.1 h
  cases item with
  | stray position => exact absurd hitem nofun
  | tree position source =>
    cases hread : Tree.read source with
    | error e =>
      rw [Item.read, hread] at hitem
      exact absurd hitem nofun
    | ok t' =>
      rw [Item.read, hread] at hitem
      obtain rfl := Except.ok.inj hitem
      exact Tree.areAtoms_of_read hread

/-- All labels of the trees of a treebank are words. -/
theorem allLabels_of_mem_trees {text : String} {t : Tree} (h : t ∈ (read text).trees) :
    t.AllLabels IsWord :=
  (areAtoms_of_mem_trees h).mono fun _ hlabel => hlabel.isWord

end Treebank

end Constituency
