import Constituency.Proofs.Grammar.Text

/-!
# The form of grammar texts

Texts are read if their lines are all blank or in the right form, and the grammar says what the
lines say (`SaysOf`). Any others are refused, and the first line that is neither blank nor in the
right form is reported (`FirstUnfit`).
-/

namespace Constituency.Grammar

/-! ## What is read from lines -/

/-- A line that is blank or good. -/
def Fits (good : String → Prop) (line : String) : Prop := Text.isBlankText line = true ∨ good line

/-- The lines of a text are blank or good. -/
def AllFit (good : String → Prop) (text : String) : Prop := ∀ line ∈ Text.lines text, Fits good line

/-- Of some lines, the one in a certain place is the first that is neither blank nor good. -/
def FirstUnfitAt (good : String → Prop) (lines : List String) (place : Nat) : Prop :=
  (∃ line, lines[place]? = some line ∧ ¬ Fits good line) ∧
    ∀ earlier < place, ∀ line, lines[earlier]? = some line → Fits good line

/-- The line of a text with a certain number, the first one being one, is the first that is neither
blank nor good. -/
def FirstUnfit (good : String → Prop) (text : String) (number : Nat) : Prop :=
  ∃ place, number = place + 1 ∧ FirstUnfitAt good (Text.lines text) place

/-- The lines of a text that are not blank. -/
def filledLines (text : String) : List String :=
  (Text.lines text).filter fun line => !Text.isBlankText line

section Lines

variable {α : Type} {read : String → Except LineFault α} {good : String → Prop}

/-- No two lines are the first that is neither blank nor good. -/
theorem FirstUnfit.unique {text : String} {number other : Nat} (h : FirstUnfit good text number)
    (ho : FirstUnfit good text other) : number = other := by
  obtain ⟨place, rfl, ⟨line, hline, hunfit⟩, hearlier⟩ := h
  obtain ⟨place', rfl, ⟨line', hline', hunfit'⟩, hearlier'⟩ := ho
  rcases Nat.lt_trichotomy place place' with hlt | rfl | hlt
  · exact absurd (hearlier' place hlt line hline) hunfit
  · rfl
  · exact absurd (hearlier place' hlt line' hline') hunfit'

/-- If a line is the first that is neither blank nor good, no other one is. -/
theorem FirstUnfit.iff_eq {text : String} {number other : Nat} (h : FirstUnfit good text number) :
    FirstUnfit good text other ↔ number = other := by
  constructor
  · exact h.unique
  · rintro rfl
    exact h

/-- If a line is the first that is neither blank nor good, not all are. -/
theorem FirstUnfit.not_allFit {text : String} {number : Nat} (h : FirstUnfit good text number) :
    ¬ AllFit good text := by
  obtain ⟨place, -, ⟨line, hline, hunfit⟩, -⟩ := h
  exact fun hall => hunfit (hall line (List.mem_of_getElem? hline))

/-- If all lines are blank or good, none is the first that is not. -/
theorem AllFit.not_firstUnfit {text : String} (h : AllFit good text) (number : Nat) :
    ¬ FirstUnfit good text number := fun hfirst => hfirst.not_allFit h

/-- A line that is neither blank nor good is the first such one if it is the first line. -/
theorem firstUnfitAt_zero {line : String} (h : ¬ Fits good line) (rest : List String) :
    FirstUnfitAt good (line :: rest) 0 :=
  ⟨⟨line, rfl, h⟩, fun earlier hlt => absurd hlt (Nat.not_lt_zero earlier)⟩

/-- The first line that is neither blank nor good comes one place later if a line that fits comes
before all. -/
theorem FirstUnfitAt.succ {lines : List String} {place : Nat} (h : FirstUnfitAt good lines place)
    {line : String} (hfits : Fits good line) : FirstUnfitAt good (line :: lines) (place + 1) := by
  obtain ⟨hunfit, hearlier⟩ := h
  refine ⟨hunfit, fun earlier hlt other ho => ?_⟩
  cases earlier with
  | zero =>
    obtain rfl : line = other := by simpa using ho
    exact hfits
  | succ earlier => exact hearlier earlier (by omega) other ho

/-- An error is reported for the first line, which does not fit, or for a later one. -/
theorem readLines_cons_eq_error {number : Nat} {line : String} {rest : List String}
    {error : MalformedLine} (h : readLines read number (line :: rest) = .error error) :
    (Fits (fun line => ∃ value, read line = .ok value) line ∧
        readLines read (number + 1) rest = .error error) ∨
      (¬ Fits (fun line => ∃ value, read line = .ok value) line ∧ error.line = number) := by
  unfold readLines at h
  cases hblank : Text.isBlankText line with
  | true =>
    rw [hblank, if_pos rfl] at h
    exact .inl ⟨.inl hblank, h⟩
  | false =>
    rw [hblank, if_neg Bool.false_ne_true] at h
    cases hread : read line with
    | error fault =>
      rw [hread] at h
      obtain rfl := Except.error.inj h
      exact .inr ⟨by simp [Fits, hblank, hread], rfl⟩
    | ok value =>
      rw [hread] at h
      cases hrest : readLines read (number + 1) rest with
      | error e =>
        rw [hrest] at h
        exact .inl ⟨.inr ⟨value, hread⟩, h⟩
      | ok others =>
        rw [hrest] at h
        cases h

/-- If no values are read from lines, the first of them that is neither blank nor readable is
reported. -/
theorem firstUnfitAt_of_readLines {number : Nat} {lines : List String} {error : MalformedLine}
    (h : readLines read number lines = .error error) :
    ∃ place, error.line = number + place ∧
      FirstUnfitAt (fun line => ∃ value, read line = .ok value) lines place := by
  induction lines generalizing number with
  | nil => cases h
  | cons line rest ih =>
    obtain ⟨hfits, hrest⟩ | ⟨hunfit, hline⟩ := readLines_cons_eq_error h
    · obtain ⟨place, hplace, hfirst⟩ := ih hrest
      exact ⟨place + 1, by omega, hfirst.succ hfits⟩
    · exact ⟨0, hline, firstUnfitAt_zero hunfit rest⟩

/-- Some values are read from the lines of a text exactly if all of these are blank or readable. -/
theorem exists_readLines_iff {text : String} :
    (∃ values, readLines read 1 (Text.lines text) = .ok values) ↔
      AllFit (fun line => ∃ value, read line = .ok value) text := by
  constructor
  · rintro ⟨values, h⟩ line hline
    cases hblank : Text.isBlankText line with
    | true => exact .inl hblank
    | false =>
      have hfilled : line ∈ filledLines text := List.mem_filter.2 ⟨hline, by rw [hblank]; rfl⟩
      obtain ⟨value, -, hvalue⟩ := exists_mem_of_forall₂ (readLines_eq_ok_iff.1 h) hfilled
      exact .inr ⟨value, hvalue⟩
  · intro hall
    cases h : readLines read 1 (Text.lines text) with
    | ok values => exact ⟨values, rfl⟩
    | error error =>
      obtain ⟨place, -, hfirst⟩ := firstUnfitAt_of_readLines h
      exact absurd hall (FirstUnfit.not_allFit ⟨place, rfl, hfirst⟩)

/-- If no values are read from the lines of a text, the first that is neither blank nor readable is
reported. -/
theorem firstUnfit_of_readLines {text : String} {error : MalformedLine}
    (h : readLines read 1 (Text.lines text) = .error error) :
    FirstUnfit (fun line => ∃ value, read line = .ok value) text error.line := by
  obtain ⟨place, hplace, hfirst⟩ := firstUnfitAt_of_readLines h
  exact ⟨place, by omega, hfirst⟩

end Lines

/-! ## What the lines of a lexicon say -/

/-- The pairs on all lines of a word, in order. -/
def pairsOf (word : String) (entries : List (String × List (TagCost Float))) :
    List (TagCost Float) := (entries.filter (·.1 == word)).flatMap Prod.snd

/-- The words of the lines, in the order of their first lines; the reserved one is left out. -/
def wordsOf (entries : List (String × List (TagCost Float))) : List String :=
  ((entries.map Prod.fst).filter (· != unknownWord)).eraseDups

/-- The lexicon that some lines make up: each word with the rules of the pairs on its lines. -/
def lexiconOfLines (entries : List (String × List (TagCost Float))) :
    OrderedMap String (List (Rule Float)) :=
  ⟨(wordsOf entries).map fun word => (word, (pairsOf word entries).map (TagCost.rule word))⟩

/-- The lines of words are inserted one by one: those of the reserved word into the smoothing list,
the others into the lexicon. -/
theorem foldl_insertWord_eq (g : Grammar Float) {entries : List (String × List (TagCost Float))}
    (hne : ∀ entry ∈ entries, entry.2 ≠ []) :
    entries.foldl insertWord g =
      { g with
        lexicon := (entries.filter (·.1 != unknownWord)).foldl
          (fun lexicon entry => lexicon.append entry.1 (entry.2.map (TagCost.rule entry.1)))
          g.lexicon
        smoothing := g.smoothing ++ pairsOf unknownWord entries } := by
  induction entries generalizing g with
  | nil => simp [pairsOf]
  | cons entry rest ih =>
    obtain ⟨word, pairs⟩ := entry
    have ih := fun g => ih g fun other ho => hne other (List.mem_cons_of_mem _ ho)
    rw [List.foldl_cons, ih]
    by_cases hword : word = unknownWord
    · subst hword
      rw [insertWord_unknownWord]
      simp [pairsOf]
    · rw [insertWord_of_ne g hword (hne (word, pairs) List.mem_cons_self)]
      simp [pairsOf, hword]

/-- The lexicon that grows along some lines is the one that they make up. -/
theorem foldl_append_eq_lexiconOfLines (entries : List (String × List (TagCost Float))) :
    (entries.filter (·.1 != unknownWord)).foldl
      (fun lexicon entry => lexicon.append entry.1 (entry.2.map (TagCost.rule entry.1))) .empty =
        lexiconOfLines entries := by
  let lexicon : OrderedMap String (List (Rule Float)) :=
    (entries.filter (·.1 != unknownWord)).foldl
      (fun lexicon entry => lexicon.append entry.1 (entry.2.map (TagCost.rule entry.1))) .empty
  have hkeys : lexicon.keys = wordsOf entries := by
    have hgrown := OrderedMap.keys_foldl_alter Prod.fst
      (fun (entry : String × List (TagCost Float)) present =>
        present.getD [] ++ entry.2.map (TagCost.rule entry.1))
      (entries.filter (·.1 != unknownWord))
    rw [wordsOf, List.filter_map]
    exact hgrown
  have hvalue : ∀ word ∈ wordsOf entries,
      (lexicon.find? word).getD [] = (pairsOf word entries).map (TagCost.rule word) := by
    intro word hword
    have hne : word ≠ unknownWord := by
      rw [wordsOf, List.mem_eraseDups] at hword
      simpa using (List.mem_filter.1 hword).2
    have hsame : (entries.filter (·.1 != unknownWord)).filter (·.1 == word) =
        entries.filter (·.1 == word) := by
      rw [List.filter_filter]
      refine List.filter_congr fun entry _ => ?_
      by_cases hentry : entry.1 = word <;> simp [hentry, hne]
    calc (lexicon.find? word).getD []
        = (entries.filter (·.1 == word)).flatMap fun entry =>
            entry.2.map (TagCost.rule entry.1) := by
          rw [← hsame]
          exact OrderedMap.getD_find?_foldl_append _ _ _ word
      _ = (entries.filter (·.1 == word)).flatMap fun entry =>
            entry.2.map (TagCost.rule word) := by
          refine List.flatMap_congr fun entry hentry => ?_
          rw [beq_iff_eq.1 (List.mem_filter.1 hentry).2]
      _ = (pairsOf word entries).map (TagCost.rule word) := by
          rw [pairsOf, List.map_flatMap]
  have hnodup : lexicon.keys.Nodup := hkeys ▸ OrderedMap.nodup_eraseDups _
  show lexicon = lexiconOfLines entries
  have hentries := List.map_congr_left fun word hword => congrArg (Prod.mk word) (hvalue word hword)
  rw [lexiconOfLines, ← hentries, ← hkeys, ← OrderedMap.entries_eq_map hnodup]

/-! ## What is read from texts -/

/-- A grammar says what the lines of two texts say: its syntactic rules are those of the first, in
order, and its lexicon and its smoothing list are made up by the lines of the second. -/
structure SaysOf (rules lexicon : String) (g : Grammar Float) : Prop where
  /-- The lines that are not blank tell the syntactic rules. -/
  syntactic : List.Forall₂ IsRuleLine (filledLines rules) g.syntactic
  /-- The lines that are not blank tell the words with their parts of speech. -/
  words : ∃ entries, List.Forall₂ IsWordLine (filledLines lexicon) entries ∧
    g.lexicon = lexiconOfLines entries ∧ g.smoothing = pairsOf unknownWord entries
  /-- There are no counts. -/
  counts : g.counts = .empty

/-- A grammar is read from two texts if it says what their lines say. -/
theorem ofText_eq_ok_iff {rules lexicon : String} {g : Grammar Float} :
    ofText rules lexicon = .ok g ↔ SaysOf rules lexicon g := by
  have hwords : ∀ {syntactic entries},
      List.Forall₂ IsWordLine (filledLines lexicon) entries →
      entries.foldl insertWord { (empty : Grammar Float) with syntactic } =
        ⟨.empty, syntactic, lexiconOfLines entries, pairsOf unknownWord entries⟩ := by
    intro syntactic entries hentries
    rw [foldl_insertWord_eq, ← foldl_append_eq_lexiconOfLines]
    · rfl
    · intro entry hentry
      obtain ⟨line, -, hline⟩ := exists_of_mem_forall₂ hentries hentry
      exact hline.ne_nil
  have hread : ∀ {syntactic}, readLines readRuleLine 1 (Text.lines rules) = .ok syntactic ↔
      List.Forall₂ IsRuleLine (filledLines rules) syntactic := by
    intro syntactic
    simp only [readLines_eq_ok_iff, readRuleLine_eq_ok_iff]
    rfl
  have hreadWords : ∀ {entries}, readLines readWordLine 1 (Text.lines lexicon) = .ok entries ↔
      List.Forall₂ IsWordLine (filledLines lexicon) entries := by
    intro entries
    simp only [readLines_eq_ok_iff, readWordLine_eq_ok_iff]
    rfl
  unfold ofText
  simp only [bind_eq_ok_iff, hread, hreadWords]
  constructor
  · rintro ⟨syntactic, hsyntactic, entries, hentries, hg⟩
    obtain rfl := Except.ok.inj hg
    rw [hwords hentries]
    exact ⟨hsyntactic, ⟨entries, hentries, rfl, rfl⟩, rfl⟩
  · rintro ⟨hsyntactic, ⟨entries, hentries, hlexicon, hsmoothing⟩, hcounts⟩
    refine ⟨g.syntactic, hsyntactic, entries, hentries, ?_⟩
    rw [hwords hentries, ← hlexicon, ← hsmoothing, ← hcounts]
    rfl

/-- The lines of rules that can be read are those in the right form. -/
theorem readable_ruleLine :
    (fun line => ∃ rule, readRuleLine line = .ok rule) = GoodRuleLine := by
  funext line
  simp only [readRuleLine_eq_ok_iff, exists_isRuleLine_iff]

/-- The lines of the lexicon that can be read are those in the right form. -/
theorem readable_wordLine :
    (fun line => ∃ entry, readWordLine line = .ok entry) = GoodWordLine := by
  funext line
  simp only [readWordLine_eq_ok_iff, exists_isWordLine_iff]

/-- What becomes of two texts: a line of the first is reported, or all of these fit and one of the
second is reported, or all lines fit and a grammar is read. -/
theorem ofText_cases (rules lexicon : String) :
    (∃ error, ofText rules lexicon = .error error ∧ FirstUnfit GoodRuleLine rules error.line) ∨
      (∃ error, ofText rules lexicon = .error error ∧ AllFit GoodRuleLine rules ∧
        FirstUnfit GoodWordLine lexicon error.line) ∨
      ((∃ g, ofText rules lexicon = .ok g) ∧ AllFit GoodRuleLine rules ∧
        AllFit GoodWordLine lexicon) := by
  rw [← readable_ruleLine, ← readable_wordLine]
  unfold ofText
  cases hrules : readLines readRuleLine 1 (Text.lines rules) with
  | error error => exact .inl ⟨error, rfl, firstUnfit_of_readLines hrules⟩
  | ok syntactic =>
    have hfit := exists_readLines_iff.1 ⟨syntactic, hrules⟩
    cases hwords : readLines readWordLine 1 (Text.lines lexicon) with
    | error error => exact .inr (.inl ⟨error, rfl, hfit, firstUnfit_of_readLines hwords⟩)
    | ok entries =>
      exact .inr (.inr ⟨⟨_, rfl⟩, hfit, exists_readLines_iff.1 ⟨entries, hwords⟩⟩)

/-- Texts are read exactly if every line of rules and every line of the lexicon that is not blank is
in the right form. The grammar then says what the lines say. Otherwise the error reports, by its
number in the text, the first line of rules that is not in the right form, or, if there is none, the
first such line of the lexicon. -/
theorem ofText_reads_form (rules lexicon : String) :
    ((∃ g, ofText rules lexicon = .ok g) ↔
      AllFit GoodRuleLine rules ∧ AllFit GoodWordLine lexicon) ∧
    (∀ g, ofText rules lexicon = .ok g ↔ SaysOf rules lexicon g) ∧
    ∀ number, (∃ fault, ofText rules lexicon = .error ⟨number, fault⟩) ↔
      FirstUnfit GoodRuleLine rules number ∨
        AllFit GoodRuleLine rules ∧ FirstUnfit GoodWordLine lexicon number := by
  refine ⟨?_, fun g => ofText_eq_ok_iff, fun number => ?_⟩
  · rcases ofText_cases rules lexicon with
      ⟨error, herror, hfirst⟩ | ⟨error, herror, -, hfirst⟩ | ⟨hread, hfit⟩
    · simp [herror, hfirst.not_allFit]
    · simp [herror, hfirst.not_allFit]
    · exact ⟨fun _ => hfit, fun _ => hread⟩
  · rcases ofText_cases rules lexicon with
      ⟨⟨line, fault⟩, herror, hfirst⟩ | ⟨⟨line, fault⟩, herror, hfit, hfirst⟩ |
        ⟨⟨g, hg⟩, hfit, hwords⟩
    · simp [herror, hfirst.iff_eq, hfirst.not_allFit]
    · simp [herror, hfirst.iff_eq, hfit, hfit.not_firstUnfit]
    · simp [hg, hfit, hfit.not_firstUnfit, hwords.not_firstUnfit]

example : ofText "1\tS\tNP VP\n \n1\tS" "dog" = .error ⟨3, .ruleFields⟩ := by decide +kernel

end Constituency.Grammar
