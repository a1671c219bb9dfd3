import Constituency.Proofs.Grammar.Lines
import Constituency.Proofs.OrderedMap

/-!
# Grammars are read back from their texts

What is written of a grammar (`written`) leaves out the counts, the marks of roots and the reserved
word. If its rules and words fit on lines (`Writable`) and its costs are read back from their texts,
that is what reading gives (`reload_eq`), and it is written in the same lines again. A grammar that
has been read is writable, and nothing of it is left out (`loaded_of_ofText`).
-/

namespace Constituency

open Text (IsWord IsLine)

variable {κ : Type}

namespace Grammar

/-- Writes a grammar and reads it again. -/
def reload (g : Grammar Float) : Except MalformedLine (Grammar Float) :=
  ofText ("\n".intercalate g.ruleLines) ("\n".intercalate g.lexiconLines)

/-- What is written of a grammar: its syntactic rules, its lexicon without the reserved word, and
its smoothing list, but neither counts nor the marks of roots. -/
def written (g : Grammar κ) : Grammar κ where
  counts := .empty
  syntactic := g.syntactic.map Rule.unmarked
  lexicon := ⟨(g.lexicon.entries.filter (·.1 != unknownWord)).map fun entry =>
    (entry.1, entry.2.map Rule.unmarked)⟩
  smoothing := g.smoothing

/-- A grammar whose rules and words fit on lines. -/
structure Writable (g : Grammar κ) : Prop where
  /-- The syntactic rules. -/
  syntactic : ∀ rule ∈ g.syntactic, rule.FitsLine
  /-- The words are distinct. -/
  distinct : g.lexicon.keys.Nodup
  /-- The words and their rules. -/
  words : ∀ {word : String} {rules : List (Rule κ)}, g.lexicon.find? word = some rules →
    FitsWordLine word rules
  /-- The parts of speech of unknown words. -/
  smoothing : ∀ entry ∈ g.smoothing, IsWord entry.tag

/-- The costs of a grammar are read back from their texts. -/
structure CostsReadBack (g : Grammar Float) : Prop where
  /-- Those of the syntactic rules. -/
  syntactic : ∀ rule ∈ g.syntactic, Decimal.ReadsBack rule.cost
  /-- Those of the rules of words. -/
  lexicon : ∀ rules ∈ g.lexicon.values, ∀ rule ∈ rules, Decimal.ReadsBack rule.cost
  /-- Those of the parts of speech of unknown words. -/
  smoothing : ∀ entry ∈ g.smoothing, Decimal.ReadsBack entry.cost

instance (g : Grammar Float) : Decidable g.CostsReadBack :=
  decidable_of_iff ((∀ rule ∈ g.syntactic, Decimal.ReadsBack rule.cost) ∧
      (∀ rules ∈ g.lexicon.values, ∀ rule ∈ rules, Decimal.ReadsBack rule.cost) ∧
      ∀ entry ∈ g.smoothing, Decimal.ReadsBack entry.cost)
    ⟨fun h => ⟨h.1, h.2.1, h.2.2⟩, fun h => ⟨h.syntactic, h.lexicon, h.smoothing⟩⟩

/-! ## What is written -/

/-- The words that are written with their rules, and after them the reserved word with those of the
smoothing list. -/
def writtenEntries (g : Grammar κ) : List (String × List (Rule κ)) :=
  g.lexicon.entries.filter (·.1 != unknownWord) ++
    if g.smoothing.isEmpty then [] else [(unknownWord, g.smoothingRules)]

/-- The lines of the lexicon are those of the words that are written. -/
theorem lexiconLines_eq (g : Grammar Float) :
    g.lexiconLines = g.writtenEntries.map fun entry => wordLine entry.1 entry.2 := by
  rw [lexiconLines, writtenEntries, List.map_append]
  cases g.smoothing.isEmpty <;> rfl

/-- A line of the lexicon does not show the marks of roots. -/
theorem wordLine_unmarked (word : String) (rules : List (Rule Float)) :
    wordLine word (rules.map Rule.unmarked) = wordLine word rules := by
  rw [wordLine, wordLine, List.map_map]
  rfl

/-- What is written of a grammar has the same lines of rules. -/
theorem ruleLines_written (g : Grammar Float) : g.written.ruleLines = g.ruleLines := by
  rw [ruleLines, written, List.map_map]
  rfl

/-- What is written of a grammar has the same lines of the lexicon. -/
theorem lexiconLines_written (g : Grammar Float) : g.written.lexiconLines = g.lexiconLines := by
  have hfilter : g.written.lexicon.entries.filter (·.1 != unknownWord) =
      (g.lexicon.entries.filter (·.1 != unknownWord)).map fun entry =>
        (entry.1, entry.2.map Rule.unmarked) := by
    rw [written, List.filter_map, List.filter_filter]
    simp only [Function.comp_def, Bool.and_self]
  rw [lexiconLines_eq, lexiconLines_eq, writtenEntries, writtenEntries, hfilter, List.map_append,
    List.map_append, List.map_map]
  congr 1
  exact List.map_congr_left fun entry _ => wordLine_unmarked entry.1 entry.2

/-! ## Reading -/

/-- Lines that are not blank are read one by one. -/
theorem readLines_map {α β : Type} {read : String → Except LineFault β} {write : α → String}
    {value : α → β} {xs : List α}
    (h : ∀ x ∈ xs, Text.isBlankText (write x) = false ∧ read (write x) = .ok (value x))
    (number : Nat) : readLines read number (xs.map write) = .ok (xs.map value) := by
  have hfilled : (xs.map write).filter (fun line => !Text.isBlankText line) = xs.map write := by
    refine List.filter_eq_self.2 fun line hline => ?_
    obtain ⟨x, hx, rfl⟩ := List.mem_map.1 hline
    rw [(h x hx).1]
    rfl
  rw [readLines_eq_ok_iff, hfilled, List.forall₂_map_left_iff, List.forall₂_map_right_iff,
    List.forall₂_same]
  exact fun x hx => (h x hx).2

/-- Inserting parts of speech of a word one by one appends their rules. -/
theorem foldl_insertLexical (g : Grammar Float) (word : String) {entries : List (TagCost Float)}
    (hne : entries ≠ []) :
    entries.foldl (fun g entry => g.insertLexical word entry) g =
      { g with lexicon := g.lexicon.append word (entries.map (TagCost.rule word)) } := by
  induction entries generalizing g with
  | nil => exact absurd rfl hne
  | cons entry rest ih =>
    rw [List.foldl_cons]
    cases rest with
    | nil => rfl
    | cons next rest =>
      rw [ih _ (List.cons_ne_nil _ _)]
      simp only [insertLexical, OrderedMap.append_append]
      rfl

/-- Inserting parts of speech of unknown words one by one appends them. -/
theorem foldl_insertSmoothing (g : Grammar Float) (entries : List (TagCost Float)) :
    entries.foldl insertSmoothing g = { g with smoothing := g.smoothing ++ entries } := by
  induction entries generalizing g with
  | nil => simp
  | cons entry rest ih =>
    rw [List.foldl_cons, ih]
    simp [insertSmoothing]

/-- A word other than the reserved one is inserted with the rules of its parts of speech. -/
theorem insertWord_of_ne (g : Grammar Float) {word : String} {entries : List (TagCost Float)}
    (hword : word ≠ unknownWord) (hne : entries ≠ []) :
    g.insertWord (word, entries) =
      { g with lexicon := g.lexicon.append word (entries.map (TagCost.rule word)) } := by
  rw [insertWord, if_neg (by simpa using hword)]
  exact foldl_insertLexical g word hne

/-- The reserved word is inserted into the smoothing list. -/
theorem insertWord_unknownWord (g : Grammar Float) (entries : List (TagCost Float)) :
    g.insertWord (unknownWord, entries) = { g with smoothing := g.smoothing ++ entries } := by
  rw [insertWord, if_pos (by simp)]
  exact foldl_insertSmoothing g entries

/-- Distinct new words are inserted one after the other. -/
theorem foldl_insertWord (g : Grammar Float) {words : List (String × List (TagCost Float))}
    (hdistinct : (g.lexicon.keys ++ words.map Prod.fst).Nodup)
    (hwords : ∀ entry ∈ words, entry.1 ≠ unknownWord ∧ entry.2 ≠ []) :
    words.foldl insertWord g =
      { g with lexicon := ⟨g.lexicon.entries ++ words.map fun entry =>
        (entry.1, entry.2.map (TagCost.rule entry.1))⟩ } := by
  induction words generalizing g with
  | nil => simp
  | cons entry rest ih =>
    obtain ⟨word, entries⟩ := entry
    obtain ⟨hword, hne⟩ := hwords (word, entries) List.mem_cons_self
    have hnew : word ∉ g.lexicon.keys := by
      intro hmem
      have hdisjoint := (List.nodup_append.1 hdistinct).2.2
      exact hdisjoint word hmem word List.mem_cons_self rfl
    have happend : g.lexicon.append word (entries.map (TagCost.rule word)) =
        ⟨g.lexicon.entries ++ [(word, entries.map (TagCost.rule word))]⟩ := by
      rw [OrderedMap.append, OrderedMap.alter_of_not_mem hnew]
      rfl
    rw [List.foldl_cons, insertWord_of_ne g hword hne, happend, ih _ ?_ fun other ho =>
      hwords other (List.mem_cons_of_mem _ ho)]
    · simp
    · simpa [OrderedMap.keys] using hdistinct

/-! ## Reading what has been written -/

/-- Parts of speech of unknown words fit on the line of the reserved word. -/
theorem fitsWordLine_smoothingRules {g : Grammar κ} (h : ∀ entry ∈ g.smoothing, IsWord entry.tag)
    (hne : g.smoothing ≠ []) : FitsWordLine unknownWord g.smoothingRules := by
  refine ⟨by decide, by decide, fun hnil => hne (List.map_eq_nil_iff.1 hnil), fun rule hr => ?_⟩
  obtain ⟨entry, hentry, rfl⟩ := List.mem_map.1 hr
  exact ⟨entry.tag, h entry hentry, rfl⟩

/-- The smoothing list is what its line tells. -/
theorem map_tagCost_smoothingRules (g : Grammar κ) :
    g.smoothingRules.map Rule.tagCost = g.smoothing := by
  rw [smoothingRules, List.map_map]
  refine (List.map_congr_left fun entry _ => ?_).trans (List.map_id _)
  rw [Function.comp_apply, Rule.tagCost, TagCost.rule, Rule.ofWord, Side.text_single]
  rfl

/-- The words that are written fit on lines. -/
theorem Writable.fitsWordLine {g : Grammar κ} (h : g.Writable)
    {entry : String × List (Rule κ)} (hentry : entry ∈ g.writtenEntries) :
    FitsWordLine entry.1 entry.2 := by
  rcases List.mem_append.1 hentry with hentry | hentry
  · exact h.words ((OrderedMap.mem_entries_iff h.distinct).1 (List.mem_filter.1 hentry).1)
  · split at hentry
    · exact absurd hentry List.not_mem_nil
    · rename_i hne
      obtain rfl := List.mem_singleton.1 hentry
      exact fitsWordLine_smoothingRules h.smoothing fun hnil => hne (List.isEmpty_iff.2 hnil)

/-- The costs on the lines of words are read back. -/
theorem CostsReadBack.readsBack {g : Grammar Float} (h : g.CostsReadBack)
    {entry : String × List (Rule Float)} (hentry : entry ∈ g.writtenEntries) :
    ∀ rule ∈ entry.2, Decimal.ReadsBack rule.cost := by
  rcases List.mem_append.1 hentry with hentry | hentry
  · exact h.lexicon entry.2 (List.mem_map_of_mem (List.mem_filter.1 hentry).1)
  · split at hentry
    · exact absurd hentry List.not_mem_nil
    · obtain rfl := List.mem_singleton.1 hentry
      intro rule hr
      obtain ⟨tagCost, htagCost, rfl⟩ := List.mem_map.1 hr
      exact h.smoothing tagCost htagCost

/-- What the lines of the lexicon tell makes up the lexicon and the smoothing list. -/
theorem Writable.foldl_insertWord_written {g : Grammar Float} (h : g.Writable) :
    (g.writtenEntries.map fun entry => (entry.1, entry.2.map Rule.tagCost)).foldl insertWord
        { (empty : Grammar Float) with syntactic := g.syntactic.map Rule.unmarked } =
      g.written := by
  let kept : List (String × List (Rule Float)) :=
    g.lexicon.entries.filter (·.1 != unknownWord)
  have hkept : ∀ entry ∈ kept, entry.1 ≠ unknownWord ∧ FitsWordLine entry.1 entry.2 := by
    intro entry hentry
    refine ⟨bne_iff_ne.1 (List.mem_filter.1 hentry).2, h.fitsWordLine ?_⟩
    exact List.mem_append_left _ hentry
  have hdistinct : (kept.map Prod.fst).Nodup :=
    h.distinct.sublist (List.filter_sublist.map Prod.fst)
  have hwords : (kept.map fun entry => (entry.1, entry.2.map Rule.tagCost)).map
      (fun entry => (entry.1, entry.2.map (TagCost.rule entry.1))) =
        kept.map fun entry => (entry.1, entry.2.map Rule.unmarked) := by
    rw [List.map_map]
    refine List.map_congr_left fun entry hentry => ?_
    exact congrArg (Prod.mk entry.1) (hkept entry hentry).2.map_rule_tagCost
  have hfold : (kept.map fun entry => (entry.1, entry.2.map Rule.tagCost)).foldl insertWord
      { (empty : Grammar Float) with syntactic := g.syntactic.map Rule.unmarked } =
        { g.written with smoothing := [] } := by
    rw [foldl_insertWord _ (by simpa [empty, List.map_map, Function.comp_def] using hdistinct)]
    · rw [hwords]
      rfl
    · intro entry hentry
      obtain ⟨other, ho, rfl⟩ := List.mem_map.1 hentry
      exact ⟨(hkept other ho).1, mt List.map_eq_nil_iff.1 (hkept other ho).2.ne_nil⟩
  -- The words come before the reserved one, which makes up the smoothing list.
  rw [writtenEntries, List.map_append, List.foldl_append, hfold]
  cases hsmoothing : g.smoothing with
  | nil =>
    show _ = g.written
    rw [written, hsmoothing]
    rfl
  | cons entry rest =>
    rw [List.isEmpty_cons, if_neg Bool.false_ne_true, List.map_singleton, List.foldl_cons,
      List.foldl_nil, insertWord_unknownWord, map_tagCost_smoothingRules]
    rfl

/-- A grammar whose rules and words fit on lines and whose costs are read back is read back, as far
as it is written. -/
theorem Writable.reload_eq {g : Grammar Float} (h : g.Writable) (hcosts : g.CostsReadBack) :
    g.reload = .ok g.written := by
  have hruleLines : Text.lines ("\n".intercalate g.ruleLines) = g.ruleLines := by
    refine Text.lines_intercalate fun line hline => ?_
    obtain ⟨rule, hr, rfl⟩ := List.mem_map.1 hline
    exact isLine_ruleLine (h.syntactic rule hr)
  have hlexiconLines : Text.lines ("\n".intercalate g.lexiconLines) = g.lexiconLines := by
    refine Text.lines_intercalate fun line hline => ?_
    rw [lexiconLines_eq] at hline
    obtain ⟨entry, hentry, rfl⟩ := List.mem_map.1 hline
    exact isLine_wordLine (h.fitsWordLine hentry)
  have hrules : readLines readRuleLine 1 g.ruleLines = .ok (g.syntactic.map Rule.unmarked) := by
    refine readLines_map (fun rule hr => ⟨?_, ?_⟩) 1
    · obtain ⟨c, hc, hblank⟩ := exists_mem_ruleLine rule
      exact Text.isBlankText_eq_false hc hblank
    · exact readRuleLine_ruleLine (h.syntactic rule hr) (hcosts.syntactic rule hr)
  have hwords : readLines readWordLine 1 g.lexiconLines =
      .ok (g.writtenEntries.map fun entry => (entry.1, entry.2.map Rule.tagCost)) := by
    rw [lexiconLines_eq]
    refine readLines_map (fun entry hentry => ⟨?_, ?_⟩) 1
    · exact isBlankText_wordLine (h.fitsWordLine hentry)
    · exact readWordLine_wordLine (h.fitsWordLine hentry) (hcosts.readsBack hentry)
  rw [reload, ofText, hruleLines, hlexiconLines, hrules, hwords, ← h.foldl_insertWord_written]
  rfl

/-! ## Grammars that have been read -/

/-- A grammar like those that are read: nothing that it has is left out when it is written. -/
structure Loaded (g : Grammar κ) : Prop extends g.Writable where
  /-- There are no counts. -/
  counts : g.counts = .empty
  /-- No syntactic rule is marked as that of a root. -/
  unmarked : ∀ rule ∈ g.syntactic, rule.top = false
  /-- The reserved word is not in the lexicon. -/
  reserved : g.lexicon.find? unknownWord = none
  /-- No rule of a word is marked as that of a root. -/
  unmarkedWords : ∀ {word : String} {rules : List (Rule κ)}, g.lexicon.find? word = some rules →
    ∀ rule ∈ rules, rule.top = false

/-- A rule that is not marked as that of a root stays as it is. -/
theorem unmarked_eq {rule : Rule κ} (h : rule.top = false) : rule.unmarked = rule := by
  rw [Rule.unmarked, ← h]

/-- Rules that are not marked stay as they are. -/
theorem map_unmarked {rules : List (Rule κ)} (h : ∀ rule ∈ rules, rule.top = false) :
    rules.map Rule.unmarked = rules :=
  (List.map_congr_left fun rule hr => unmarked_eq (h rule hr)).trans (List.map_id rules)

/-- All of a grammar that has been read is written. -/
theorem Loaded.written_eq {g : Grammar κ} (h : g.Loaded) : g.written = g := by
  have hwords : ∀ entry ∈ g.lexicon.entries, entry.1 ≠ unknownWord ∧
      entry.2.map Rule.unmarked = entry.2 := by
    intro entry hentry
    have hfind := (OrderedMap.mem_entries_iff h.distinct).1 hentry
    refine ⟨fun hword => ?_, map_unmarked (h.unmarkedWords hfind)⟩
    rw [hword, h.reserved] at hfind
    exact absurd hfind nofun
  have hfilter : g.lexicon.entries.filter (·.1 != unknownWord) = g.lexicon.entries :=
    List.filter_eq_self.2 fun entry hentry => bne_iff_ne.2 (hwords entry hentry).1
  have hlexicon : (g.lexicon.entries.map fun entry => (entry.1, entry.2.map Rule.unmarked)) =
      g.lexicon.entries :=
    (List.map_congr_left fun entry hentry =>
      congrArg (Prod.mk entry.1) (hwords entry hentry).2).trans (List.map_id _)
  rw [written, hfilter, hlexicon, map_unmarked h.unmarked, ← h.counts]

/-- Inserting a word that has been read from a line leaves a grammar as if read. -/
theorem Loaded.insertWord {g : Grammar Float} (h : g.Loaded)
    {entry : String × List (TagCost Float)}
    (hentry : FitsWordLine entry.1 (entry.2.map (TagCost.rule entry.1))) :
    (g.insertWord entry).Loaded := by
  obtain ⟨word, entries⟩ := entry
  by_cases hword : word = unknownWord
  · subst hword
    rw [insertWord_unknownWord]
    refine ⟨⟨h.syntactic, h.distinct, h.words, fun tagCost htagCost => ?_⟩, h.counts, h.unmarked,
      h.reserved, h.unmarkedWords⟩
    rcases List.mem_append.1 htagCost with hold | hnew
    · exact h.smoothing tagCost hold
    · have htag := hentry.isWord_lhs (List.mem_map_of_mem hnew)
      rwa [TagCost.rule, Rule.ofWord, Side.text_single] at htag
  · have hne : entries ≠ [] := fun hnil => hentry.ne_nil (by rw [hnil, List.map_nil])
    rw [insertWord_of_ne g hword hne]
    -- The rules of the word come after those that it may have had already.
    refine ⟨⟨h.syntactic, OrderedMap.nodup_keys_alter h.distinct _ _, fun hother => ?_,
      h.smoothing⟩, h.counts, h.unmarked, ?_, fun hother rule hr => ?_⟩
    · rcases OrderedMap.find?_append_cases hother with hold | ⟨rfl, rfl | ⟨before, hbefore, rfl⟩⟩
      · exact h.words hold
      · exact hentry
      · exact (h.words hbefore).append hentry
    · rw [OrderedMap.append, OrderedMap.find?_alter_of_ne _ (Ne.symm hword)]
      exact h.reserved
    · have hnew : ∀ rule ∈ entries.map (TagCost.rule word), rule.top = false := by
        intro rule hr
        obtain ⟨tagCost, -, rfl⟩ := List.mem_map.1 hr
        rfl
      rcases OrderedMap.find?_append_cases hother with hold | ⟨rfl, rfl | ⟨before, hbefore, rfl⟩⟩
      · exact h.unmarkedWords hold rule hr
      · exact hnew rule hr
      · rcases List.mem_append.1 hr with hr | hr
        · exact h.unmarkedWords hbefore rule hr
        · exact hnew rule hr

/-- Inserting words that have been read from lines leaves a grammar as if read. -/
theorem Loaded.foldl_insertWord {g : Grammar Float} (h : g.Loaded)
    {words : List (String × List (TagCost Float))}
    (hwords : ∀ entry ∈ words, FitsWordLine entry.1 (entry.2.map (TagCost.rule entry.1))) :
    (words.foldl Grammar.insertWord g).Loaded := by
  induction words generalizing g with
  | nil => exact h
  | cons entry rest ih =>
    exact ih (h.insertWord (hwords entry List.mem_cons_self)) fun other ho =>
      hwords other (List.mem_cons_of_mem _ ho)

/-- A grammar that is read from texts is like those that are read. -/
theorem loaded_of_ofText {rules lexicon : String} {g : Grammar Float}
    (h : ofText rules lexicon = .ok g) : g.Loaded := by
  obtain ⟨syntactic, hsyntactic, h⟩ := bind_eq_ok_iff.1 h
  obtain ⟨words, hwords, h⟩ := bind_eq_ok_iff.1 h
  obtain rfl := Except.ok.inj h
  have hrules : ∀ rule ∈ syntactic, rule.FitsLine ∧ rule.top = false := by
    intro rule hr
    obtain ⟨line, -, hline⟩ := exists_of_mem_readLines hsyntactic hr
    exact fitsLine_of_readRuleLine hline
  have hentries : ∀ entry ∈ words,
      FitsWordLine entry.1 (entry.2.map (TagCost.rule entry.1)) := by
    intro entry hentry
    obtain ⟨line, hmem, hline⟩ := exists_of_mem_readLines hwords hentry
    exact fitsWordLine_of_readWordLine (Text.not_mem_of_mem_lines hmem) hline
  have hstart : ({ (empty : Grammar Float) with syntactic } : Grammar Float).Loaded :=
    ⟨⟨fun rule hr => (hrules rule hr).1, List.nodup_nil, nofun,
      fun entry he => absurd he List.not_mem_nil⟩, rfl, fun rule hr => (hrules rule hr).2, rfl,
      nofun⟩
  exact hstart.foldl_insertWord hentries

end Grammar

end Constituency
