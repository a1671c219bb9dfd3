import Constituency.Proofs.Text.Words
import Constituency.Text.Lines
import Mathlib.Data.List.TakeDrop
import Mathlib.Data.List.TakeWhile

/-!
# Lines and their texts

Lines that are not empty, hold no line feed and do not end in a carriage return are read back from
the text in which line feeds stand between them (`lines_intercalate`). The same goes for fields
without tabs (`fields_intercalate`), and for the text before the first tab (`cutAtTab_append`); a
line has no other fields, and is cut nowhere else (`fields_eq_iff`, `cutAtTab_eq_some_iff`).
-/

namespace Constituency.Text

/-- A text that can be a line wherever it stands: it is not empty, it holds no line feed, and it has
no carriage return at its end, which would belong to a line ending. -/
structure IsLine (line : String) : Prop where
  /-- There is a character. -/
  ne_nil : line.toList ≠ []
  /-- There is no line feed. -/
  plain : '\n' ∉ line.toList
  /-- The last character is no carriage return. -/
  last : line.toList.getLast? ≠ some '\r'

/-- The lines of a text that begins with characters that are no line feeds. -/
theorem linesFrom_append {letters : List Char} (h : '\n' ∉ letters) (taken rest : List Char) :
    linesFrom taken (letters ++ rest) = linesFrom (letters.reverse ++ taken) rest := by
  induction letters generalizing taken with
  | nil => rfl
  | cons c letters ih =>
    rw [List.mem_cons, not_or] at h
    rw [List.cons_append, linesFrom, if_neg (Ne.symm h.1), ih h.2, List.reverse_cons,
      List.append_assoc]
    rfl

/-- The line whose characters have been taken from a text. -/
theorem lineOf_reverse {line : String} (h : line.toList.getLast? ≠ some '\r') :
    lineOf line.toList.reverse = line := by
  rw [← List.head?_reverse] at h
  unfold lineOf
  split
  · rename_i taken hr
    rw [hr] at h
    exact absurd rfl h
  · rw [List.reverse_reverse, String.ofList_toList]

/-- Lines are read back from the text in which line feeds stand between them. -/
theorem lines_intercalate {ls : List String} (h : ∀ line ∈ ls, IsLine line) :
    lines ("\n".intercalate ls) = ls := by
  rw [lines, String.toList_intercalate]
  induction ls with
  | nil => rfl
  | cons line rest ih =>
    have hline := h line List.mem_cons_self
    cases rest with
    | nil =>
      have hfrom := linesFrom_append hline.plain [] []
      rw [List.append_nil, List.append_nil] at hfrom
      have hne : line.toList.reverse.isEmpty = false := by
        rw [List.isEmpty_reverse, List.isEmpty_eq_false_iff]
        exact hline.ne_nil
      rw [List.map_cons, List.map_nil, List.intercalate_singleton, hfrom, linesFrom, hne,
        if_neg Bool.false_ne_true, List.reverse_reverse, String.ofList_toList]
    | cons next rest =>
      have ih := ih fun other ho => h other (List.mem_cons_of_mem _ ho)
      rw [List.map_cons, List.map_cons, List.intercalate_cons_cons, List.append_assoc,
        linesFrom_append hline.plain, List.append_nil, ← List.map_cons]
      show linesFrom line.toList.reverse ('\n' :: _) = _
      rw [linesFrom, if_pos rfl, lineOf_reverse hline.last]
      exact congrArg (line :: ·) ih

/-- Lines are read back from the text in which a line feed stands after each of them. There, empty
lines are lines as well. -/
theorem lines_unlines {ls : List String}
    (h : ∀ line ∈ ls, '\n' ∉ line.toList ∧ line.toList.getLast? ≠ some '\r') :
    lines (unlines ls) = ls := by
  rw [lines, unlines, String.toList_join]
  induction ls with
  | nil => rfl
  | cons line rest ih =>
    obtain ⟨hplain, hlast⟩ := h line List.mem_cons_self
    have ih := ih fun other ho => h other (List.mem_cons_of_mem _ ho)
    rw [List.map_cons, List.flatMap_cons, String.toList_append, List.append_assoc,
      linesFrom_append hplain, List.append_nil]
    show linesFrom line.toList.reverse ('\n' :: _) = _
    rw [linesFrom, if_pos rfl, lineOf_reverse hlast]
    exact congrArg (line :: ·) ih

/-- No line of a text holds a line feed, if the characters already taken hold none. -/
theorem not_mem_of_mem_linesFrom {taken chars : List Char} (htaken : '\n' ∉ taken) {line : String}
    (h : line ∈ linesFrom taken chars) : '\n' ∉ line.toList := by
  have htext : ∀ {letters : List Char}, '\n' ∉ letters →
      '\n' ∉ (String.ofList letters.reverse).toList := by
    intro letters hletters
    rwa [String.toList_ofList, List.mem_reverse]
  induction chars generalizing taken with
  | nil =>
    rw [linesFrom] at h
    split at h
    · exact absurd h List.not_mem_nil
    · exact List.mem_singleton.1 h ▸ htext htaken
  | cons c rest ih =>
    rw [linesFrom] at h
    split at h
    · rcases List.mem_cons.1 h with rfl | h
      · unfold lineOf
        split
        · exact htext (mt (List.mem_cons_of_mem _) htaken)
        · exact htext htaken
      · exact ih List.not_mem_nil h
    · rename_i hc
      refine ih (fun hmem => ?_) h
      rcases List.mem_cons.1 hmem with rfl | hmem
      · exact hc rfl
      · exact htaken hmem

/-- No line of a text holds a line feed. -/
theorem not_mem_of_mem_lines {text line : String} (h : line ∈ lines text) : '\n' ∉ line.toList :=
  not_mem_of_mem_linesFrom List.not_mem_nil h

/-- Fields without tabs are read back from the line in which tabs stand between them. -/
theorem fields_intercalate {texts : List String} (h : ∀ text ∈ texts, '\t' ∉ text.toList)
    (hne : texts ≠ []) : fields ("\t".intercalate texts) = texts :=
  cutAt_intercalate h hne

/-- Parts between separators hold none. -/
theorem not_mem_of_mem_splitOn {α : Type} [BEq α] [LawfulBEq α] {separator : α} {items : List α}
    {part : List α} (h : part ∈ items.splitOn separator) : separator ∉ part := by
  induction items generalizing part with
  | nil =>
    rw [List.splitOn_nil] at h
    exact List.mem_singleton.1 h ▸ List.not_mem_nil
  | cons item items ih =>
    rw [List.splitOn_cons_eq_if_modifyHead] at h
    split at h
    · rcases List.mem_cons.1 h with rfl | h
      · exact List.not_mem_nil
      · exact ih h
    · rename_i hitem
      cases hsplit : items.splitOn separator with
      | nil => exact absurd hsplit (List.splitOn_ne_nil _ _)
      | cons first rest =>
        rw [hsplit] at h ih
        rcases List.mem_cons.1 h with rfl | h
        · rw [List.mem_cons, not_or]
          exact ⟨fun heq => hitem (beq_iff_eq.2 heq.symm), ih List.mem_cons_self⟩
        · exact ih (List.mem_cons_of_mem first h)

/-- The fields of a line are the texts without tabs that make it up with tabs between them. -/
theorem fields_eq_iff {line : String} {texts : List String} (hne : texts ≠ []) :
    fields line = texts ↔
      (∀ text ∈ texts, '\t' ∉ text.toList) ∧ line = "\t".intercalate texts := by
  constructor
  · rintro rfl
    constructor
    · intro text ht
      obtain ⟨letters, hl, rfl⟩ := List.mem_map.1 ht
      rw [String.toList_ofList]
      exact not_mem_of_mem_splitOn hl
    · exact (intercalate_cutAt '\t' line).symm
  · rintro ⟨h, rfl⟩
    exact fields_intercalate h hne

/-- The text before the first tab is cut off. -/
theorem cutAtTab_append {before : String} (h : '\t' ∉ before.toList) (after : String) :
    cutAtTab (before ++ "\t" ++ after) = some (before, after) := by
  have hplain : ∀ c ∈ before.toList, (c != '\t') = true := by
    intro c hc
    rw [bne_iff_ne]
    rintro rfl
    exact h hc
  have hspan : (before ++ "\t" ++ after).toList.span (· != '\t') =
      (before.toList, '\t' :: after.toList) := by
    rw [String.toList_append, String.toList_append, List.append_assoc,
      List.span_eq_takeWhile_dropWhile, List.takeWhile_append_of_pos hplain,
      List.dropWhile_append_of_pos hplain]
    show (before.toList ++ [], _) = _
    rw [List.append_nil]
    rfl
  rw [cutAtTab, hspan]
  show some (String.ofList before.toList, String.ofList after.toList) = _
  rw [String.ofList_toList, String.ofList_toList]

/-- A line is cut at its first tab. -/
theorem cutAtTab_eq_some_iff {line before after : String} :
    cutAtTab line = some (before, after) ↔
      '\t' ∉ before.toList ∧ line = before ++ "\t" ++ after := by
  constructor
  · intro h
    unfold cutAtTab at h
    split at h
    · rename_i front c rest hspan
      obtain ⟨rfl, rfl⟩ := Prod.mk.inj (Option.some.inj h)
      rw [List.span_eq_takeWhile_dropWhile] at hspan
      obtain ⟨hfront, hrest⟩ := Prod.mk.inj hspan
      have hc : c = '\t' := by
        have hhead := List.head?_dropWhile_not (· != '\t') line.toList
        rw [hrest] at hhead
        simpa using hhead
      constructor
      · rw [String.toList_ofList, ← hfront]
        exact fun hmem => absurd (List.mem_takeWhile_imp hmem) (by decide)
      · have hline : line.toList = front ++ c :: rest := by
          rw [← hfront, ← hrest, List.takeWhile_append_dropWhile]
        rw [← String.toList_inj, hline, hc]
        simp [String.toList_append]
    · exact absurd h nofun
  · rintro ⟨h, rfl⟩
    exact cutAtTab_append h after

end Constituency.Text
