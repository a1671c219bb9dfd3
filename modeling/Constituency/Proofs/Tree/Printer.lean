import Constituency.Proofs.Tree.Language
import Constituency.Proofs.Tree.Nodes
import Constituency.Tree.Printer

/-!
# Trees are read back from their texts

The tokens of the text of a tree do not depend on what follows, as long as a word ends there
(`tokensOf_text`), and they denote the tree unless it is a single word (`denotes_written`). So a
tree whose labels hold neither blanks nor parentheses is read back from its text (`read_text`). All
trees that are read from texts are of this kind (`read_inverts_text`).
-/

namespace Constituency.Tree

/-! ## The tokens of a tree -/

mutual

/-- The tokens of a tree in brackets. -/
def written : Tree → List Token
  | node label [] => [.word label]
  | node label (child :: rest) =>
    .opening :: .word label :: (child.written ++ writtenOfAll rest ++ [.closing])

/-- The tokens of a list of trees, one tree after the other. -/
def writtenOfAll : List Tree → List Token
  | [] => []
  | t :: rest => t.written ++ writtenOfAll rest

end

/-- The tokens of a node that is no word. -/
theorem written_node {label : String} {children : List Tree} (hne : children ≠ []) :
    (node label children).written =
      .opening :: .word label :: (writtenOfAll children ++ [.closing]) := by
  obtain ⟨child, rest, rfl⟩ := List.exists_cons_of_ne_nil hne
  rw [written, writtenOfAll]

/-- The text of a node that is no word. -/
theorem text_node {label : String} {children : List Tree} (hne : children ≠ []) :
    (node label children).text = "(" ++ label ++ textOfAll children ++ ")" := by
  obtain ⟨child, rest, rfl⟩ := List.exists_cons_of_ne_nil hne
  rw [text, textOfAll]
  simp only [String.append_assoc]

/-- A word ends before the texts of further children. -/
theorem endsWord_textOfAll (ts : List Tree) {rest : List Char} (hrest : EndsWord rest) :
    EndsWord ((textOfAll ts).toList ++ rest) := by
  cases ts with
  | nil => exact hrest
  | cons t ts =>
    have hlist : (textOfAll (t :: ts)).toList = ' ' :: (t.text ++ textOfAll ts).toList := by
      rw [textOfAll, String.append_assoc, String.toList_append]
      rfl
    rw [hlist]
    exact fun h => absurd h.blank (by decide)

/-- The characters of the texts of children are those of the texts, and spaces. -/
theorem exists_of_mem_textOfAll {ts : List Tree} {c : Char} (hc : c ∈ (textOfAll ts).toList) :
    c = ' ' ∨ ∃ t ∈ ts, c ∈ t.text.toList := by
  induction ts with
  | nil => exact absurd hc List.not_mem_nil
  | cons t ts ih =>
    rw [textOfAll, String.toList_append, String.toList_append, List.mem_append,
      List.mem_append] at hc
    rcases hc with (hc | hc) | hc
    · exact Or.inl (List.mem_singleton.1 hc)
    · exact Or.inr ⟨t, List.mem_cons_self, hc⟩
    · rcases ih hc with hspace | ⟨u, hu, hc⟩
      · exact Or.inl hspace
      · exact Or.inr ⟨u, List.mem_cons_of_mem t hu, hc⟩

/-- The characters of the text of a tree whose labels hold neither blanks nor parentheses. -/
theorem isPlain_or_of_mem_text {t : Tree} (h : t.AllLabels IsAtom) {c : Char}
    (hc : c ∈ t.text.toList) : IsPlain c ∨ c = '(' ∨ c = ')' ∨ c = ' ' := by
  induction h generalizing c with
  | @node label children here _ ih =>
    by_cases hne : children = []
    · subst hne
      exact Or.inl (here.plain c hc)
    · rw [text_node hne] at hc
      simp only [String.toList_append, List.mem_append] at hc
      rcases hc with ((hc | hc) | hc) | hc
      · exact Or.inr (Or.inl (List.mem_singleton.1 hc))
      · exact Or.inl (here.plain c hc)
      · rcases exists_of_mem_textOfAll hc with hspace | ⟨t, ht, hc⟩
        · exact Or.inr (Or.inr (Or.inr hspace))
        · exact ih t ht hc
      · exact Or.inr (Or.inr (Or.inl (List.mem_singleton.1 hc)))

/-- The tokens of the texts of children. -/
theorem tokensOf_textOfAll {ts : List Tree}
    (h : ∀ t ∈ ts, ∀ rest, EndsWord rest →
      tokensOf (t.text.toList ++ rest) = t.written ++ tokensOf rest)
    {rest : List Char} (hrest : EndsWord rest) :
    tokensOf ((textOfAll ts).toList ++ rest) = writtenOfAll ts ++ tokensOf rest := by
  induction ts with
  | nil => rfl
  | cons t ts ih =>
    have hts := ih fun u hu => h u (List.mem_cons_of_mem t hu)
    have hlist : (textOfAll (t :: ts)).toList ++ rest =
        ' ' :: (t.text.toList ++ ((textOfAll ts).toList ++ rest)) := by
      rw [textOfAll, String.toList_append, String.toList_append, List.append_assoc,
        List.append_assoc]
      rfl
    rw [hlist, tokensOf_blank (by decide), h t List.mem_cons_self _ (endsWord_textOfAll ts hrest),
      hts, writtenOfAll, List.append_assoc]

/-- The tokens of the text of a tree whose labels hold neither blanks nor parentheses. -/
theorem tokensOf_text {t : Tree} (h : t.AllLabels IsAtom) :
    ∀ rest, EndsWord rest → tokensOf (t.text.toList ++ rest) = t.written ++ tokensOf rest := by
  induction h with
  | @node label children here _ ih =>
    intro rest hrest
    by_cases hne : children = []
    · subst hne
      exact tokensOf_atom here hrest
    · have hlist : (node label children).text.toList ++ rest =
          '(' :: (label.toList ++ ((textOfAll children).toList ++ ')' :: rest)) := by
        rw [text_node hne]
        simp only [String.toList_append, List.append_assoc]
        rfl
      have hclosing : EndsWord (')' :: rest) := fun hplain => hplain.closing rfl
      rw [hlist, tokensOf_opening, tokensOf_atom here (endsWord_textOfAll children hclosing),
        tokensOf_textOfAll ih hclosing, tokensOf_closing, written_node hne]
      simp only [List.cons_append, List.append_assoc, List.nil_append]

/-! ## Reading the tokens of a tree -/

/-- The tokens of children denote them as items. -/
theorem denoteAll_writtenOfAll {ts : List Tree}
    (h : ∀ t ∈ ts, t.isLeaf = false → Denotes t.written t) : DenoteAll (writtenOfAll ts) ts := by
  induction ts with
  | nil => exact .nil
  | cons t ts ih =>
    have hts := ih fun u hu => h u (List.mem_cons_of_mem t hu)
    rw [writtenOfAll]
    match t with
    | .node _ [] => exact .word hts
    | .node _ (_ :: _) => exact .tree (h _ List.mem_cons_self rfl) hts

/-- The tokens of a tree that is no single word denote it. -/
theorem denotes_written {t : Tree} : t.isLeaf = false → Denotes t.written t := by
  induction t using Tree.induction with
  | node label children ih =>
    intro hleaf
    have hne : children ≠ [] := List.isEmpty_eq_false_iff.1 hleaf
    rw [written_node hne]
    exact .node hne (denoteAll_writtenOfAll ih)

/-- A tree whose labels hold neither blanks nor parentheses is read back from its text, unless it is
a single word. -/
theorem read_text {t : Tree} (h : t.AllLabels IsAtom) (hleaf : t.isLeaf = false) :
    read t.text = .ok t := by
  have htokens : tokensOf t.text.toList = t.written := by
    have hall := tokensOf_text h [] trivial
    rw [List.append_nil] at hall
    exact hall.trans (List.append_nil _)
  rw [read_eq_ok_iff, htokens]
  exact denotes_written hleaf

/-- Reading inverts writing on the trees that are no single words and whose labels are not empty and
hold neither blanks nor parentheses. Every tree that is read from a text is of this kind, so it is
read back from its own text. -/
theorem read_inverts_text :
    (∀ t : Tree, t.isLeaf = false → t.AllLabels IsAtom → read t.text = .ok t) ∧
      ∀ (text : String) (t : Tree), read text = .ok t →
        t.isLeaf = false ∧ t.AllLabels IsAtom ∧ read t.text = .ok t := by
  refine ⟨fun t hleaf hlabels => read_text hlabels hleaf, fun text t hread => ?_⟩
  have hleaf : t.isLeaf = false := (read_eq_ok_iff.1 hread).isLeaf_eq_false
  exact ⟨hleaf, areAtoms_of_read hread, read_text (areAtoms_of_read hread) hleaf⟩

/-- A tree with a word beside a phrase is read back from its text, and read from one with other
blanks and a wrapper as well. -/
theorem read_inverts_text_dogsBark :
    (node "S" [node "NP" [leaf "dogs"], leaf "bark"]).text = "(S (NP dogs) bark)" ∧
      read (node "S" [node "NP" [leaf "dogs"], leaf "bark"]).text =
        .ok (node "S" [node "NP" [leaf "dogs"], leaf "bark"]) ∧
      read " ((S(NP  dogs )bark))" = .ok (node "S" [node "NP" [leaf "dogs"], leaf "bark"]) ∧
      (node "S" [node "NP" [leaf "dogs"], leaf "bark"]).AllLabels IsAtom := by
  have hread : read " ((S(NP  dogs )bark))" =
      .ok (node "S" [node "NP" [leaf "dogs"], leaf "bark"]) := rfl
  exact ⟨rfl, read_inverts_text.1 _ rfl (by decide +kernel), hread,
    (read_inverts_text.2 _ _ hread).2.1⟩

end Constituency.Tree
