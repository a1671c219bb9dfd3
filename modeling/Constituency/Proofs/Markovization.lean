import Constituency.Markovization
import Constituency.Proofs.Text.Words
import Mathlib.Data.List.Basic

/-!
# Names of introduced symbols

An introduced symbol bears the mark, so it is none of the labels that do not. Its name has a window,
the closing bracket and the mark, and a parent. If the bracket and the mark stand together nowhere
else, the name tells the parent and the text of the window (`introduced_eq_iff`). If there is
no comma in its symbols, the text of a window tells the window (`intercalate_inj`). Both hold if the
symbols are clear and the parents bear no mark (`introduced_inj`).
-/

namespace Constituency.Markovization

/-- The characters of the name of an introduced symbol. -/
theorem toList_introduced (window : List String) (parent : String) :
    (introduced window parent).toList =
      '[' :: ((",".intercalate window).toList ++ ']' :: '@' :: parent.toList) := by
  rw [introduced, String.toList_append, String.toList_append, String.toList_append,
    String.toList_append, String.toList_singleton]
  simp [mark]

/-- An introduced symbol bears the mark. -/
@[simp]
theorem isMarked_introduced (window : List String) (parent : String) :
    isMarked (introduced window parent) = true := by
  simp [isMarked, toList_introduced, mark]

/-- A label bears no mark exactly if the character does not occur in it. -/
theorem isMarked_eq_false_iff {label : String} : isMarked label = false ↔ '@' ∉ label.toList := by
  simp [isMarked, mark]

/-- A symbol that can be told in a window and from introduced symbols: neither the comma nor the
mark occurs in it. -/
structure Clear (symbol : String) : Prop where
  /-- There is no comma. -/
  comma : ',' ∉ symbol.toList
  /-- There is no mark. -/
  mark : '@' ∉ symbol.toList

instance (symbol : String) : Decidable (Clear symbol) :=
  decidable_of_iff (',' ∉ symbol.toList ∧ '@' ∉ symbol.toList)
    ⟨fun h => ⟨h.1, h.2⟩, fun h => ⟨h.comma, h.mark⟩⟩

/-- A clear symbol bears no mark. -/
theorem Clear.isMarked {symbol : String} (h : Clear symbol) : isMarked symbol = false :=
  isMarked_eq_false_iff.2 h.mark

/-- The closing bracket and the mark, which stand between a window and a parent, occur in a text. -/
def Closes (text : String) : Prop := [']', mark] <:+: text.toList

instance (text : String) : Decidable (Closes text) :=
  inferInstanceAs (Decidable ([']', mark] <:+: text.toList))

/-- A text that bears no mark does not close a window. -/
theorem not_closes_of_isMarked {text : String} (h : isMarked text = false) : ¬ Closes text :=
  fun hcloses => isMarked_eq_false_iff.1 h (hcloses.subset (by simp [mark]))

/-- A window whose text closes has a symbol that does, since the comma is not what closes. -/
theorem exists_closes_of_intercalate {window : List String} (h : Closes (",".intercalate window)) :
    ∃ symbol ∈ window, Closes symbol := by
  have hcomma : ',' ∉ [']', mark] := by decide
  induction window with
  | nil => exact absurd h (by decide)
  | cons symbol rest ih =>
    cases rest with
    | nil => exact ⟨symbol, List.mem_cons_self, by rwa [String.intercalate_singleton] at h⟩
    | cons next rest =>
      have hchars : (",".intercalate (symbol :: next :: rest)).toList =
          symbol.toList ++ ',' :: (",".intercalate (next :: rest)).toList := by
        rw [String.intercalate_cons_cons, String.toList_append, String.toList_append]
        simp
      rw [Closes, hchars] at h
      rcases Text.infix_of_infix_append_cons hcomma h with h | h
      · exact ⟨symbol, List.mem_cons_self, h⟩
      · obtain ⟨other, hother, hcloses⟩ := ih h
        exact ⟨other, List.mem_cons_of_mem symbol hother, hcloses⟩

/-- If what closes a window comes again after other characters, it occurs in these, and it occurs
after the first one. -/
theorem closing_of_append {skipped parent parent' : List Char} (hne : skipped ≠ [])
    (h : ']' :: mark :: parent = skipped ++ ']' :: mark :: parent') :
    [']', mark] <:+: skipped ∧ [']', mark] <:+: parent := by
  match skipped, hne, h with
  | [c], _, h =>
    -- The mark would be a bracket.
    have hmark : mark = ']' := (List.cons.inj (List.cons.inj h).2).1
    exact absurd hmark (by decide)
  | c :: d :: skipped, _, h =>
    obtain ⟨rfl, hrest⟩ := List.cons.inj h
    obtain ⟨rfl, rfl⟩ := List.cons.inj hrest
    exact ⟨⟨[], skipped, rfl⟩, ⟨skipped, parent', by simp⟩⟩

/-- An introduced symbol tells the text of its window and its parent, unless the parent and a symbol
in the window of another one both close a window. -/
theorem introduced_eq_iff {window other : List String} {parent parent' : String}
    (hclosing : Closes parent → ∀ symbol ∈ other, ¬ Closes symbol)
    (hclosing' : Closes parent' → ∀ symbol ∈ window, ¬ Closes symbol) :
    introduced window parent = introduced other parent' ↔
      parent = parent' ∧ ",".intercalate window = ",".intercalate other := by
  -- If one window ended later, what closes the other one would stand in it and in a parent.
  have hskipped : ∀ {window other : List String} {parent parent' : String} {skipped : List Char},
      (Closes parent → ∀ symbol ∈ other, ¬ Closes symbol) →
      (",".intercalate other).toList = (",".intercalate window).toList ++ skipped →
      ']' :: mark :: parent.toList = skipped ++ ']' :: mark :: parent'.toList →
        parent = parent' ∧ ",".intercalate window = ",".intercalate other := by
    intro window other parent parent' skipped hclosing hother hrest
    have hnil : skipped = [] := by
      by_contra hne
      obtain ⟨hin, hparent⟩ := closing_of_append hne hrest
      have hcloses : Closes (",".intercalate other) := by
        rw [Closes, hother]
        exact List.infix_append_of_infix_right hin
      obtain ⟨symbol, hs, hcloses⟩ := exists_closes_of_intercalate hcloses
      exact hclosing hparent symbol hs hcloses
    rw [hnil, List.append_nil] at hother
    rw [hnil, List.nil_append] at hrest
    exact ⟨String.toList_inj.1 (List.cons.inj (List.cons.inj hrest).2).2,
      (String.toList_inj.1 hother).symm⟩
  constructor
  · intro h
    have hlist : (",".intercalate window).toList ++ ']' :: mark :: parent.toList =
        (",".intercalate other).toList ++ ']' :: mark :: parent'.toList := by
      have hlist := congrArg String.toList h
      rw [toList_introduced, toList_introduced] at hlist
      exact (List.cons.inj hlist).2
    obtain ⟨skipped, hlonger, hrest⟩ | ⟨skipped, hlonger, hrest⟩ :=
      List.append_eq_append_iff.1 hlist
    · exact hskipped hclosing hlonger hrest
    · obtain ⟨hparent, htext⟩ := hskipped hclosing' hlonger hrest
      exact ⟨hparent.symm, htext.symm⟩
  · rintro ⟨rfl, htext⟩
    rw [introduced, introduced, htext]

-- A parent and a symbol that both close a window can stand for one another.
example : introduced ["DT"] "X]@NP" = introduced ["DT]@X"] "NP" := by decide

/-- Windows without a comma are read back from their texts. -/
theorem splitOn_intercalate {window : List String}
    (hcomma : ∀ symbol ∈ window, ',' ∉ symbol.toList) (hne : window ≠ []) :
    (",".intercalate window).toList.splitOn ',' = window.map String.toList := by
  rw [String.toList_intercalate]
  refine List.splitOn_intercalate ',' (fun letters hl => ?_) (by simpa using hne)
  obtain ⟨symbol, hs, rfl⟩ := List.mem_map.1 hl
  exact hcomma symbol hs

/-- Windows without a comma are told by their texts. -/
theorem intercalate_inj {window other : List String}
    (hcomma : ∀ symbol ∈ window, ',' ∉ symbol.toList)
    (hcomma' : ∀ symbol ∈ other, ',' ∉ symbol.toList) (hne : window ≠ []) (hne' : other ≠ [])
    (h : ",".intercalate window = ",".intercalate other) : window = other := by
  have hmap : window.map String.toList = other.map String.toList := by
    rw [← splitOn_intercalate hcomma hne, ← splitOn_intercalate hcomma' hne', h]
  have hinj : Function.Injective String.toList := fun _ _ => String.toList_inj.1
  exact List.map_injective_iff.2 hinj hmap

/-- An introduced symbol tells its window and its parent. -/
theorem introduced_inj {window other : List String} {parent parent' : String}
    (hwindow : ∀ symbol ∈ window, Clear symbol) (hother : ∀ symbol ∈ other, Clear symbol)
    (hne : window ≠ []) (hne' : other ≠ []) (hparent : isMarked parent = false)
    (h : introduced window parent = introduced other parent') :
    window = other ∧ parent = parent' := by
  obtain ⟨hsame, htext⟩ := (introduced_eq_iff
    (fun hcloses => absurd hcloses (not_closes_of_isMarked hparent))
    fun _ symbol hs => not_closes_of_isMarked (hwindow symbol hs).isMarked).1 h
  exact ⟨intercalate_inj (fun symbol hs => (hwindow symbol hs).comma)
    (fun symbol hs => (hother symbol hs).comma) hne hne' htext, hsame⟩

end Constituency.Markovization
