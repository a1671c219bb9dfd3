import Constituency.Text.Blank

/-!
# Words and their texts

Words that are not empty and hold no blanks are read back from the text in which they stand with
single spaces between them (`words_unwords`), so different lists of such words have different texts.

What is read from any text is what it spells by a rule of its own: blanks are left out, and each run
of other characters goes as far as it can (`Spells`, `spells_iff`).
-/

namespace Constituency.Text

/-- A text that can be a word: it is not empty and holds no blank. -/
structure IsWord (word : String) : Prop where
  /-- There is a character. -/
  ne_nil : word.toList ≠ []
  /-- No character is blank. -/
  plain : ∀ c ∈ word.toList, isBlank c = false

/-- Whether a text can be a word is seen from its characters, one after the other. -/
theorem isWord_iff {word : String} :
    IsWord word ↔ word.toList ≠ [] ∧ word.toList.all (fun c => !isBlank c) = true := by
  simp only [List.all_eq_true, Bool.not_eq_true']
  exact ⟨fun h => ⟨h.ne_nil, h.plain⟩, fun h => ⟨h.1, h.2⟩⟩

instance (word : String) : Decidable (IsWord word) := decidable_of_iff' _ isWord_iff

/-- Characters that are no blanks make a word if there are any. -/
theorem IsWord.ofList {letters : List Char} (hne : letters ≠ [])
    (hplain : ∀ c ∈ letters, isBlank c = false) : IsWord (String.ofList letters) :=
  ⟨by rwa [String.toList_ofList], by rwa [String.toList_ofList]⟩

/-- Characters that have been taken make a word as soon as there is one. -/
theorem IsWord.ofTaken {c : Char} {taken : List Char} (h : ∀ d ∈ c :: taken, isBlank d = false) :
    IsWord (String.ofList (c :: taken).reverse) :=
  .ofList (mt List.reverse_eq_nil_iff.1 (List.cons_ne_nil c taken))
    fun d hd => h d (List.mem_reverse.1 hd)

/-- The words of a text that begins with characters that are not blank. -/
theorem wordsFrom_append {letters : List Char} (h : ∀ c ∈ letters, isBlank c = false)
    (taken rest : List Char) :
    wordsFrom taken (letters ++ rest) = wordsFrom (letters.reverse ++ taken) rest := by
  induction letters generalizing taken with
  | nil => rfl
  | cons c letters ih =>
    rw [List.cons_append, wordsFrom, h c List.mem_cons_self, if_neg Bool.false_ne_true,
      ih (fun d hd => h d (List.mem_cons_of_mem c hd)), List.reverse_cons, List.append_assoc]
    rfl

/-- The word whose characters have been taken from a text. -/
theorem wordOf_reverse {word : String} (h : IsWord word) : wordOf word.toList.reverse = [word] := by
  cases hr : word.toList.reverse with
  | nil => exact absurd (List.reverse_eq_nil_iff.1 hr) h.ne_nil
  | cons c taken =>
    show [String.ofList (c :: taken).reverse] = [word]
    rw [← hr, List.reverse_reverse, String.ofList_toList]

/-- A word that has been begun does not go on with these characters: there are none, or the first of
them is a blank. -/
def Breaks : List Char → Prop
  | [] => True
  | c :: _ => isBlank c = true

/-- A space ends a word. -/
theorem breaks_space (rest : List Char) : Breaks (' ' :: rest) := rfl

/-- A blank is left out between words. -/
theorem wordsFrom_blank {c : Char} (h : isBlank c = true) (rest : List Char) :
    wordsFrom [] (c :: rest) = wordsFrom [] rest := by
  rw [wordsFrom, if_pos h, wordOf, List.nil_append]

/-- Where a word ends, what has been taken of it is the word. -/
theorem wordsFrom_of_breaks {rest : List Char} (h : Breaks rest) (taken : List Char) :
    wordsFrom taken rest = wordOf taken ++ wordsFrom [] rest := by
  cases rest with
  | nil => exact (List.append_nil _).symm
  | cons c rest =>
    have hblank : isBlank c = true := h
    rw [wordsFrom_blank hblank, wordsFrom, if_pos hblank]

/-- A word is the first word of a text if it ends before what follows. -/
theorem wordsFrom_word {word : String} (h : IsWord word) {rest : List Char} (hrest : Breaks rest) :
    wordsFrom [] (word.toList ++ rest) = word :: wordsFrom [] rest := by
  rw [wordsFrom_append h.plain, List.append_nil, wordsFrom_of_breaks hrest, wordOf_reverse h,
    List.singleton_append]

/-- Words are read back from their text. -/
theorem words_unwords {ws : List String} (h : ∀ word ∈ ws, IsWord word) :
    words (unwords ws) = ws := by
  rw [words, unwords, String.toList_intercalate]
  induction ws with
  | nil => rfl
  | cons word rest ih =>
    have hword := h word List.mem_cons_self
    cases rest with
    | nil =>
      rw [List.map_cons, List.map_nil, List.intercalate_singleton, ← List.append_nil word.toList]
      exact wordsFrom_word hword trivial
    | cons next rest =>
      have ih := ih fun w hw => h w (List.mem_cons_of_mem _ hw)
      rw [List.map_cons, List.map_cons, List.intercalate_cons_cons, List.append_assoc,
        ← List.map_cons]
      exact (wordsFrom_word hword (breaks_space _)).trans (congrArg (word :: ·) ih)

/-- Words are read back from a text with a space after each of them. -/
theorem words_join {ws : List String} (h : ∀ word ∈ ws, IsWord word) :
    words (String.join (ws.map (· ++ " "))) = ws := by
  rw [words, String.toList_join]
  induction ws with
  | nil => rfl
  | cons word rest ih =>
    have ih := ih fun w hw => h w (List.mem_cons_of_mem _ hw)
    rw [List.map_cons, List.flatMap_cons, String.toList_append, List.append_assoc]
    have hword := h word List.mem_cons_self
    exact (wordsFrom_word hword (breaks_space _)).trans (congrArg (word :: ·) ih)

/-- Lists of words with the same text are the same. -/
theorem unwords_inj {first second : List String} (hfirst : ∀ word ∈ first, IsWord word)
    (hsecond : ∀ word ∈ second, IsWord word) (h : unwords first = unwords second) :
    first = second := by
  rw [← words_unwords hfirst, ← words_unwords hsecond, h]

/-! ## The words that characters spell -/

/-- Characters spell words: blanks are left out, and each run of other characters that is not empty
and goes as far as it can is a word. -/
inductive Spells : List Char → List String → Prop
  /-- No characters spell no words. -/
  | nil : Spells [] []
  /-- A blank is left out. -/
  | blank {c : Char} {rest : List Char} {ws : List String} (isBlank : isBlank c = true)
      (others : Spells rest ws) : Spells (c :: rest) ws
  /-- A maximal run of characters that are not blank. -/
  | word {word : String} {rest : List Char} {ws : List String} (isWord : IsWord word)
      (ends : Breaks rest) (others : Spells rest ws) : Spells (word.toList ++ rest) (word :: ws)

/-- What has been taken of a word is the word if it ends before what follows. -/
theorem Spells.wordOf {taken rest : List Char} {ws : List String}
    (htaken : ∀ c ∈ taken, isBlank c = false) (ends : Breaks rest) (others : Spells rest ws) :
    Spells (taken.reverse ++ rest) (wordOf taken ++ ws) := by
  cases taken with
  | nil => exact others
  | cons c before =>
    have hspells := Spells.word (.ofTaken htaken) ends others
    rwa [String.toList_ofList] at hspells

/-- Characters spell the words that are read from them. The first of these begins with the
characters already taken. -/
theorem spells_wordsFrom {taken : List Char} (htaken : ∀ c ∈ taken, isBlank c = false)
    (chars : List Char) : Spells (taken.reverse ++ chars) (wordsFrom taken chars) := by
  induction chars generalizing taken with
  | nil =>
    have hends : Breaks [] := trivial
    rw [wordsFrom_of_breaks hends]
    exact .wordOf htaken hends .nil
  | cons c rest ih =>
    by_cases hc : isBlank c = true
    · have hends : Breaks (c :: rest) := hc
      rw [wordsFrom_of_breaks hends, wordsFrom_blank hc]
      exact .wordOf htaken hends (.blank hc (ih fun d hd => absurd hd List.not_mem_nil))
    · have hplain : ∀ d ∈ c :: taken, isBlank d = false :=
        List.forall_mem_cons.2 ⟨Bool.eq_false_iff.2 hc, htaken⟩
      have hspells := ih hplain
      rw [List.reverse_cons, List.append_assoc, List.singleton_append] at hspells
      rwa [wordsFrom, if_neg hc]

/-- What characters spell is read from them. -/
theorem Spells.wordsFrom_eq {chars : List Char} {ws : List String} (h : Spells chars ws) :
    wordsFrom [] chars = ws := by
  induction h with
  | nil => rfl
  | blank isBlank _ ih => rw [wordsFrom_blank isBlank, ih]
  | word isWord ends _ ih => rw [wordsFrom_word isWord ends, ih]

/-- A text spells its words and nothing else. -/
theorem spells_iff {text : String} {ws : List String} :
    Spells text.toList ws ↔ words text = ws := by
  constructor
  · exact Spells.wordsFrom_eq
  · rintro rfl
    exact spells_wordsFrom (fun _ hc => absurd hc List.not_mem_nil) text.toList

/-- What characters spell are words. -/
theorem Spells.isWord {chars : List Char} {ws : List String} (h : Spells chars ws) :
    ∀ word ∈ ws, IsWord word := by
  induction h with
  | nil => exact fun _ hw => absurd hw List.not_mem_nil
  | blank _ _ ih => exact ih
  | word isWord _ _ ih => exact List.forall_mem_cons.2 ⟨isWord, ih⟩

/-- The words of a text are words. -/
theorem isWord_of_mem_words {text word : String} (h : word ∈ words text) : IsWord word :=
  (spells_iff.2 rfl).isWord word h

/-! ## Blanks at the ends -/

/-- A word has no blanks at its ends. -/
theorem trim_of_isWord {word : String} (h : IsWord word) : trim word = word := by
  have hdrop : ∀ letters : List Char, (∀ c ∈ letters, isBlank c = false) →
      letters.dropWhile isBlank = letters := by
    intro letters hletters
    cases letters with
    | nil => rfl
    | cons c rest =>
      rw [List.dropWhile_cons, hletters c List.mem_cons_self, if_neg Bool.false_ne_true]
  rw [trim, hdrop _ h.plain, hdrop _ fun c hc => h.plain c (List.mem_reverse.1 hc),
    List.reverse_reverse, String.ofList_toList]

/-- A text with a character that is no blank is not blank. -/
theorem isBlankText_eq_false {text : String} {c : Char} (hc : c ∈ text.toList)
    (h : isBlank c = false) : isBlankText text = false := by
  rw [isBlankText, List.all_eq_false]
  exact ⟨c, hc, by rw [h]; exact Bool.false_ne_true⟩

/-! ## Texts that are joined -/

/-- A character of texts that are joined is one of the separator, or it stands in one of them. -/
theorem exists_of_mem_intercalate {separator : String} {texts : List String} {c : Char}
    (h : c ∈ (separator.intercalate texts).toList) :
    c ∈ separator.toList ∨ ∃ text ∈ texts, c ∈ text.toList := by
  induction texts with
  | nil => exact absurd h nofun
  | cons text texts ih =>
    cases texts with
    | nil =>
      rw [String.intercalate_singleton] at h
      exact Or.inr ⟨text, List.mem_cons_self, h⟩
    | cons next rest =>
      rw [String.intercalate_cons_cons, String.toList_append, String.toList_append,
        List.mem_append, List.mem_append] at h
      rcases h with (h | h) | h
      · exact Or.inr ⟨text, List.mem_cons_self, h⟩
      · exact Or.inl h
      · obtain hseparator | ⟨other, ho, hc⟩ := ih h
        · exact Or.inl hseparator
        · exact Or.inr ⟨other, List.mem_cons_of_mem _ ho, hc⟩

/-- The parts of a text between the places of a separator. There is always one, and a part may be
empty. -/
def cutAt (separator : Char) (text : String) : List String :=
  (text.toList.splitOn separator).map String.ofList

/-- A text is its parts with the separator between them. -/
theorem intercalate_cutAt (separator : Char) (text : String) :
    (String.singleton separator).intercalate (cutAt separator text) = text := by
  have hparts : (cutAt separator text).map String.toList = text.toList.splitOn separator := by
    rw [cutAt, List.map_map]
    exact (List.map_congr_left fun _ _ => String.toList_ofList).trans (List.map_id _)
  rw [← String.toList_inj, String.toList_intercalate, String.toList_singleton, hparts,
    List.intercalate_splitOn]

/-- Texts without the separator are the parts of the text in which it stands between them. -/
theorem cutAt_intercalate {separator : Char} {texts : List String}
    (h : ∀ text ∈ texts, separator ∉ text.toList) (hne : texts ≠ []) :
    cutAt separator ((String.singleton separator).intercalate texts) = texts := by
  have hsplit : ([separator].intercalate (texts.map String.toList)).splitOn separator =
      texts.map String.toList := by
    refine List.splitOn_intercalate separator (fun letters hl => ?_) (by simpa using hne)
    obtain ⟨text, ht, rfl⟩ := List.mem_map.1 hl
    exact h text ht
  rw [cutAt, String.toList_intercalate, String.toList_singleton, hsplit, List.map_map]
  exact (List.map_congr_left fun _ _ => String.ofList_toList).trans (List.map_id texts)

/-- The parts of texts with the separator between them are the parts of each text. -/
theorem cutAt_intercalate_eq_flatMap {separator : Char} {texts : List String} (hne : texts ≠ []) :
    cutAt separator ((String.singleton separator).intercalate texts) =
      texts.flatMap (cutAt separator) := by
  induction texts with
  | nil => exact absurd rfl hne
  | cons text rest ih =>
    cases rest with
    | nil => rw [String.intercalate_singleton, List.flatMap_singleton]
    | cons next rest =>
      rw [List.flatMap_cons, ← ih (List.cons_ne_nil next rest), String.intercalate_cons_cons, cutAt,
        String.toList_append, String.toList_append, String.toList_singleton, List.append_assoc,
        List.singleton_append, List.splitOn_append_cons_self, List.map_append]
      rfl

/-- What occurs in two texts with a separator between them occurs in one of them, if it does not
hold the separator. -/
theorem infix_of_infix_append_cons {α : Type} {part first second : List α} {separator : α}
    (h : separator ∉ part) (hpart : part <:+: first ++ separator :: second) :
    part <:+: first ∨ part <:+: second := by
  obtain ⟨before, after, heq⟩ := hpart
  rw [List.append_assoc, List.append_eq_append_iff] at heq
  obtain ⟨rest, rfl, hrest⟩ | ⟨skipped, rfl, hrest⟩ := heq
  · -- It begins in the first text, so it ends there.
    rw [List.append_eq_append_iff] at hrest
    obtain ⟨left, rfl, -⟩ | ⟨right, rfl, hright⟩ := hrest
    · exact Or.inl (List.infix_append' before part left)
    · cases right with
      | nil => exact Or.inl (by simpa using List.infix_append_right)
      | cons c right =>
        obtain ⟨rfl, -⟩ := List.cons.inj hright
        exact absurd (List.mem_append_right rest List.mem_cons_self) h
  · cases skipped with
    | nil =>
      cases part with
      | nil => exact Or.inl List.nil_infix
      | cons c part =>
        obtain ⟨rfl, -⟩ := List.cons.inj hrest
        exact absurd List.mem_cons_self h
    | cons c skipped =>
      obtain ⟨-, rfl⟩ := List.cons.inj hrest
      exact Or.inr (List.infix_append' skipped part after)

end Constituency.Text
