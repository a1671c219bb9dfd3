import Constituency.Proofs.Text.Words

/-!
# Single spaces

Among the texts that spell certain words, the one with single spaces between the words and no other
blanks is written for them: it is single-spaced (`SingleSpaced`).

Whether a text is single-spaced is seen from the parts between its spaces (`cutAt`). They are all
words, unless the text is empty (`singleSpaced_iff`). As the parts of texts that are joined by
spaces are the parts of each, they make a single-spaced text if each of them is one, and only then
(`singleSpaced_unwords_iff`).
-/

namespace Constituency.Text

/-- A text is made of the words that it spells with single spaces between them: there are no other
blanks. -/
def SingleSpaced (text : String) : Prop := ∃ ws, Spells text.toList ws ∧ text = unwords ws

/-- A text is single-spaced exactly if its words are written as they were read. -/
theorem singleSpaced_iff_unwords_words {text : String} :
    SingleSpaced text ↔ unwords (words text) = text := by
  constructor
  · rintro ⟨ws, hspells, htext⟩
    rw [spells_iff.1 hspells, ← htext]
  · intro h
    exact ⟨words text, spells_iff.2 rfl, h.symm⟩

instance (text : String) : Decidable (SingleSpaced text) :=
  decidable_of_iff' _ singleSpaced_iff_unwords_words

/-- Words make a single-spaced text. -/
theorem singleSpaced_of_words {ws : List String} (h : ∀ word ∈ ws, IsWord word) :
    SingleSpaced (unwords ws) :=
  ⟨ws, spells_iff.2 (words_unwords h), rfl⟩

/-- Words are what stands between the spaces of their text. -/
theorem cutAt_unwords {ws : List String} (h : ∀ word ∈ ws, IsWord word) (hne : ws ≠ []) :
    cutAt ' ' (unwords ws) = ws := by
  refine cutAt_intercalate (fun word hw hspace => ?_) hne
  exact absurd ((h word hw).plain ' ' hspace) (by decide)

/-- A text is single-spaced exactly if it is empty or the parts between its spaces are words. -/
theorem singleSpaced_iff {text : String} :
    SingleSpaced text ↔ text = "" ∨ ∀ part ∈ cutAt ' ' text, IsWord part := by
  constructor
  · rintro ⟨ws, hspells, rfl⟩
    by_cases hne : ws = []
    · exact Or.inl (by rw [hne]; rfl)
    · exact Or.inr (by rw [cutAt_unwords hspells.isWord hne]; exact hspells.isWord)
  · rintro (rfl | h)
    · exact ⟨[], .nil, rfl⟩
    · have htext : unwords (cutAt ' ' text) = text := intercalate_cutAt ' ' text
      exact htext ▸ singleSpaced_of_words h

/-- The parts of a text between its spaces are words exactly if it is single-spaced and not
empty. -/
theorem isWord_cutAt_iff {text : String} :
    (∀ part ∈ cutAt ' ' text, IsWord part) ↔ text ≠ "" ∧ SingleSpaced text := by
  rw [singleSpaced_iff]
  constructor
  · intro h
    refine ⟨?_, Or.inr h⟩
    rintro rfl
    exact (h "" (by decide)).ne_nil rfl
  · rintro ⟨hne, h⟩
    exact h.resolve_left hne

/-- Texts joined by spaces make the empty text exactly if there are none of them or an empty one
stands alone. -/
theorem unwords_eq_empty_iff {texts : List String} :
    unwords texts = "" ↔ texts = [] ∨ texts = [""] := by
  match texts with
  | [] => simp [unwords]
  | [text] => simp [unwords]
  | text :: next :: rest =>
    simp [unwords, String.intercalate_cons_cons, String.append_eq_empty_iff]

/-- Texts joined by spaces make a single-spaced text exactly if each of them is single-spaced and
not empty, or an empty one stands alone. -/
theorem singleSpaced_unwords_iff {texts : List String} :
    SingleSpaced (unwords texts) ↔
      texts = [""] ∨ ∀ text ∈ texts, text ≠ "" ∧ SingleSpaced text := by
  by_cases hne : texts = []
  · subst hne
    exact iff_of_true ⟨[], .nil, rfl⟩ (Or.inr fun text ht => absurd ht List.not_mem_nil)
  · have hparts : cutAt ' ' (unwords texts) = texts.flatMap (cutAt ' ') :=
      cutAt_intercalate_eq_flatMap hne
    rw [singleSpaced_iff, unwords_eq_empty_iff, or_iff_right hne, hparts]
    simp only [List.forall_mem_flatMap, isWord_cutAt_iff]

end Constituency.Text
