import Constituency.Proofs.Decimal.Text
import Constituency.Proofs.Grammar.LineForm
import Constituency.Proofs.Rule
import Mathlib.Data.List.Basic

/-!
# Lines of a grammar

A rule whose symbols are words is read back from its line (`readRuleLine_ruleLine`), and so is a
word with its parts of speech (`readWordLine_wordLine`), if costs are read back from their texts.
The line of a rule holds no blanks but the tabs and spaces between its words. A word of the lexicon
may hold any character but tabs and line feeds, and it may be empty; the line ends in a space,
however, so no carriage return is at its end.
-/

namespace Constituency

open Text (IsWord IsLine isBlank)

variable {κ : Type}

/-! ## Rules on lines -/

namespace Rule

/-- A rule without the mark of a root. -/
def unmarked (rule : Rule κ) : Rule κ := { rule with top := false }

/-- The part of speech that a rule rewrites and the cost of the rule. -/
def tagCost (rule : Rule κ) : TagCost κ := ⟨rule.lhs.text, rule.cost⟩

/-- A rule that a line of rules can hold. -/
structure FitsLine (rule : Rule κ) : Prop extends rule.Plain where
  /-- There is one symbol on the left. -/
  single : rule.lhs.size = 1
  /-- There are one or two symbols on the right. -/
  arity : rule.isUnary = true ∨ rule.isBinary = true
  /-- It is a syntactic rule. -/
  syntactic : rule.lexical = false

end Rule

/-- A word and its rules that a line of the lexicon can hold. -/
structure FitsWordLine (word : String) (rules : List (Rule κ)) : Prop where
  /-- There is no tab in the word. -/
  tab : '\t' ∉ word.toList
  /-- There is no line feed in the word. -/
  feed : '\n' ∉ word.toList
  /-- There is a rule. -/
  ne_nil : rules ≠ []
  /-- The rules are those of parts of speech of the word. -/
  ofWord : ∀ rule ∈ rules, ∃ tag, IsWord tag ∧ rule.unmarked = .ofWord tag word rule.cost

/-- The left-hand side of a rule of a word is a part of speech. -/
theorem FitsWordLine.isWord_lhs {word : String} {rules : List (Rule κ)}
    (h : FitsWordLine word rules) {rule : Rule κ} (hr : rule ∈ rules) : IsWord rule.lhs.text := by
  obtain ⟨tag, htag, hrule⟩ := h.ofWord rule hr
  have hlhs : rule.lhs = Side.single tag := congrArg Rule.lhs hrule
  rw [hlhs, Side.text_single]
  exact htag

/-- What a line of the lexicon tells of the rules of a word makes up the rules, but for the marks of
roots. -/
theorem FitsWordLine.map_rule_tagCost {word : String} {rules : List (Rule κ)}
    (h : FitsWordLine word rules) :
    (rules.map Rule.tagCost).map (TagCost.rule word) = rules.map Rule.unmarked := by
  rw [List.map_map]
  refine List.map_congr_left fun rule hr => ?_
  obtain ⟨tag, -, hrule⟩ := h.ofWord rule hr
  have hlhs : rule.lhs = Side.single tag := congrArg Rule.lhs hrule
  rw [Function.comp_apply, TagCost.rule, Rule.tagCost, hlhs, Side.text_single, hrule]

/-- Rules of a word that fit on lines fit on one line. -/
theorem FitsWordLine.append {word : String} {first second : List (Rule κ)}
    (hfirst : FitsWordLine word first) (hsecond : FitsWordLine word second) :
    FitsWordLine word (first ++ second) := by
  refine ⟨hfirst.tab, hfirst.feed, List.append_ne_nil_of_left_ne_nil hfirst.ne_nil _,
    fun rule hr => ?_⟩
  rcases List.mem_append.1 hr with hr | hr
  · exact hfirst.ofWord rule hr
  · exact hsecond.ofWord rule hr

/-- The characters of words that are joined by spaces are no blanks but for the spaces. -/
theorem Side.isBlank_of_mem_text {side : Side} (h : ∀ symbol ∈ side.symbols, IsWord symbol)
    {c : Char} (hc : c ∈ side.text.toList) : isBlank c = false ∨ c = ' ' := by
  rcases Text.exists_of_mem_intercalate hc with hc | ⟨symbol, hs, hc⟩
  · exact Or.inr (by simpa using hc)
  · exact Or.inl ((h symbol hs).plain c hc)

namespace Grammar

/-- The fields of a rule, with tabs between them. -/
theorem ruleLine_eq (rule : Rule Float) :
    ruleLine rule =
      "\t".intercalate [Decimal.text rule.cost, rule.lhs.text, rule.rhs.text] := by
  rw [ruleLine, String.intercalate_cons_cons, String.intercalate_cons_cons,
    String.intercalate_singleton]
  simp only [String.append_assoc]

variable {rule : Rule Float}

/-- The characters of a line of rules are no blanks but for tabs and spaces. -/
theorem isBlank_of_mem_ruleLine (h : rule.FitsLine) {c : Char}
    (hc : c ∈ (ruleLine rule).toList) : isBlank c = false ∨ c = '\t' ∨ c = ' ' := by
  rw [ruleLine_eq] at hc
  rcases Text.exists_of_mem_intercalate hc with hc | ⟨field, hf, hc⟩
  · exact Or.inr (Or.inl (by simpa using hc))
  · simp only [List.mem_cons, List.not_mem_nil, or_false] at hf
    rcases hf with rfl | rfl | rfl
    · exact Or.inl ((Decimal.isWord_text rule.cost).plain c hc)
    · exact (Side.isBlank_of_mem_text h.lhs hc).imp_right Or.inr
    · exact (Side.isBlank_of_mem_text h.rhs hc).imp_right Or.inr

/-- The first character of a line of rules is that of the cost. -/
theorem exists_mem_ruleLine (rule : Rule Float) :
    ∃ c ∈ (ruleLine rule).toList, isBlank c = false := by
  obtain ⟨c, hc⟩ := List.exists_mem_of_ne_nil _ (Decimal.isWord_text rule.cost).ne_nil
  refine ⟨c, ?_, (Decimal.isWord_text rule.cost).plain c hc⟩
  rw [ruleLine]
  simp only [String.toList_append, List.append_assoc]
  exact List.mem_append_left _ hc

/-- A line of rules is a line. -/
theorem isLine_ruleLine (h : rule.FitsLine) : IsLine (ruleLine rule) := by
  obtain ⟨c, hc, -⟩ := exists_mem_ruleLine rule
  refine ⟨List.ne_nil_of_mem hc, fun hfeed => ?_, fun hlast => ?_⟩
  · exact absurd (isBlank_of_mem_ruleLine h hfeed) (by decide)
  · exact absurd (isBlank_of_mem_ruleLine h (List.mem_of_getLast? hlast)) (by decide)

/-- A cost that is read back from its text can be read from a field. -/
theorem readCost_text {cost : Float} (h : Decimal.ReadsBack cost) :
    readCost (Decimal.text cost) = .ok cost := by
  rw [readCost, Text.trim_of_isWord (Decimal.isWord_text cost), h]
  rfl

/-- A rule is read back from its line, but for the mark of a root. -/
theorem readRuleLine_ruleLine (h : rule.FitsLine) (hcost : Decimal.ReadsBack rule.cost) :
    readRuleLine (ruleLine rule) = .ok rule.unmarked := by
  have htab : ∀ field ∈ [Decimal.text rule.cost, rule.lhs.text, rule.rhs.text],
      '\t' ∉ field.toList := by
    intro field hf htab
    simp only [List.mem_cons, List.not_mem_nil, or_false] at hf
    rcases hf with rfl | rfl | rfl
    · exact absurd ((Decimal.isWord_text rule.cost).plain _ htab) (by decide)
    · exact absurd (Side.isBlank_of_mem_text h.lhs htab) (by decide)
    · exact absurd (Side.isBlank_of_mem_text h.rhs htab) (by decide)
  have hfields := Text.fields_intercalate htab (List.cons_ne_nil _ _)
  have hplain : Rule.plain rule.lhs rule.rhs rule.cost = rule.unmarked := by
    rw [Rule.plain, Rule.unmarked, h.syntactic]
  have harity : (decide (rule.lhs.size = 1) && (rule.isUnary || rule.isBinary)) = true := by
    rw [Bool.and_eq_true, Bool.or_eq_true, decide_eq_true_eq]
    exact ⟨h.single, h.arity⟩
  unfold readRuleLine
  rw [ruleLine_eq, hfields]
  dsimp only
  rw [readCost_text hcost, Side.ofText_text h.lhs, Side.ofText_text h.rhs, ← hplain]
  exact if_pos harity

/-! ## Words on lines -/

/-- The items of a line of the lexicon after the word: each part of speech with its cost. -/
def items (rules : List (Rule Float)) : List String :=
  rules.flatMap fun rule => [rule.lhs.text, Decimal.text rule.cost]

/-- The items are written with a space after each of them. -/
theorem wordLine_eq (word : String) (rules : List (Rule Float)) :
    wordLine word rules = word ++ "\t" ++ String.join ((items rules).map (· ++ " ")) := by
  have hpairs : String.join (rules.map fun rule =>
        rule.lhs.text ++ " " ++ Decimal.text rule.cost ++ " ") =
      String.join ((items rules).map (· ++ " ")) := by
    rw [← String.toList_inj, String.toList_join, String.toList_join]
    induction rules with
    | nil => rfl
    | cons rule rest ih =>
      rw [items, List.map_cons, List.flatMap_cons, ih]
      simp [items, String.toList_append]
  rw [wordLine, hpairs]

variable {word : String} {rules : List (Rule Float)}

/-- The items are words. -/
theorem isWord_of_mem_items (h : FitsWordLine word rules) {item : String}
    (hitem : item ∈ items rules) : IsWord item := by
  obtain ⟨rule, hr, hitem⟩ := List.mem_flatMap.1 hitem
  simp only [List.mem_cons, List.not_mem_nil, or_false] at hitem
  rcases hitem with rfl | rfl
  · exact h.isWord_lhs hr
  · exact Decimal.isWord_text rule.cost

/-- The end of a line of the lexicon is a space after an item. -/
theorem isBlank_of_mem_join (h : FitsWordLine word rules) {c : Char}
    (hc : c ∈ (String.join ((items rules).map (· ++ " "))).toList) :
    isBlank c = false ∨ c = ' ' := by
  rw [String.toList_join] at hc
  obtain ⟨text, ht, hc⟩ := List.mem_flatMap.1 hc
  obtain ⟨item, hitem, rfl⟩ := List.mem_map.1 ht
  rw [String.toList_append, List.mem_append] at hc
  rcases hc with hc | hc
  · exact Or.inl ((isWord_of_mem_items h hitem).plain c hc)
  · exact Or.inr (by simpa using hc)

/-- There is a character after the tab of a line of the lexicon that is no blank. -/
theorem exists_mem_join (h : FitsWordLine word rules) :
    ∃ c ∈ (String.join ((items rules).map (· ++ " "))).toList, isBlank c = false := by
  obtain ⟨rule, hr⟩ := List.exists_mem_of_ne_nil _ h.ne_nil
  obtain ⟨c, hc⟩ := List.exists_mem_of_ne_nil _ (h.isWord_lhs hr).ne_nil
  refine ⟨c, ?_, (h.isWord_lhs hr).plain c hc⟩
  rw [String.toList_join, List.mem_flatMap]
  have hitem : rule.lhs.text ∈ items rules :=
    List.mem_flatMap.2 ⟨rule, hr, List.mem_cons_self⟩
  refine ⟨rule.lhs.text ++ " ", List.mem_map_of_mem hitem, ?_⟩
  rw [String.toList_append]
  exact List.mem_append_left _ hc

/-- A line of the lexicon is a line. -/
theorem isLine_wordLine (h : FitsWordLine word rules) : IsLine (wordLine word rules) := by
  obtain ⟨c, hc, -⟩ := exists_mem_join h
  have hlist : (wordLine word rules).toList = word.toList ++ '\t' ::
      (String.join ((items rules).map (· ++ " "))).toList := by
    rw [wordLine_eq, String.toList_append, String.toList_append, List.append_assoc]
    rfl
  refine ⟨?_, fun hfeed => ?_, fun hlast => ?_⟩
  · rw [hlist]
    exact List.append_ne_nil_of_right_ne_nil _ (List.cons_ne_nil _ _)
  · rw [hlist, List.mem_append, List.mem_cons] at hfeed
    rcases hfeed with hfeed | hfeed | hfeed
    · exact h.feed hfeed
    · exact absurd hfeed (by decide)
    · exact absurd (isBlank_of_mem_join h hfeed) (by decide)
  · -- The last character comes after the tab, whatever the word holds.
    rw [hlist, List.append_cons, List.getLast?_append_of_ne_nil _ (List.ne_nil_of_mem hc)] at hlast
    exact absurd (isBlank_of_mem_join h (List.mem_of_getLast? hlast)) (by decide)

/-- A line of the lexicon is not blank. -/
theorem isBlankText_wordLine (h : FitsWordLine word rules) :
    Text.isBlankText (wordLine word rules) = false := by
  obtain ⟨c, hc, hblank⟩ := exists_mem_join h
  refine Text.isBlankText_eq_false ?_ hblank
  rw [wordLine_eq, String.toList_append]
  exact List.mem_append_right _ hc

/-- Items are read back as the parts of speech with their costs. -/
theorem readPairs_items (hcosts : ∀ rule ∈ rules, Decimal.ReadsBack rule.cost) :
    readPairs (items rules) = .ok (rules.map Rule.tagCost) := by
  induction rules with
  | nil => rfl
  | cons rule rest ih =>
    have ih := ih fun other ho => hcosts other (List.mem_cons_of_mem rule ho)
    rw [items, List.flatMap_cons, List.cons_append, List.cons_append, List.nil_append, readPairs,
      readCost_text (hcosts rule List.mem_cons_self), ← items, ih]
    rfl

/-- There are two items for each rule. -/
theorem length_items (rules : List (Rule Float)) : (items rules).length = 2 * rules.length := by
  induction rules with
  | nil => rfl
  | cons rule rest ih =>
    rw [items, List.flatMap_cons, List.length_append, ← items, ih, List.length_cons]
    simp only [List.length_cons, List.length_nil]
    omega

/-- A word and its parts of speech with their costs are read back from its line. -/
theorem readWordLine_wordLine (h : FitsWordLine word rules)
    (hcosts : ∀ rule ∈ rules, Decimal.ReadsBack rule.cost) :
    readWordLine (wordLine word rules) = .ok (word, rules.map Rule.tagCost) := by
  have hlength := length_items rules
  have hpos : 0 < rules.length := List.length_pos_iff.2 h.ne_nil
  have hitems : (items rules).isEmpty = false := by
    rw [List.isEmpty_eq_false_iff, ← List.length_pos_iff]
    omega
  have heven : ((items rules).length % 2 != 0) = false := by
    rw [hlength, Nat.mul_mod_right]
    rfl
  unfold readWordLine
  rw [wordLine_eq, Text.cutAtTab_append h.tab]
  dsimp only
  rw [Text.words_join fun item hitem => isWord_of_mem_items h hitem, hitems, heven,
    readPairs_items hcosts]
  rfl

/-! ## What lines are read as -/

/-- Values are read from lines if each is read from one of those that are not blank. -/
theorem readLines_eq_ok_iff {α : Type} {read : String → Except LineFault α} {number : Nat}
    {lines : List String} {values : List α} :
    readLines read number lines = .ok values ↔
      List.Forall₂ (fun line value => read line = .ok value)
        (lines.filter fun line => !Text.isBlankText line) values := by
  induction lines generalizing number values with
  | nil =>
    show Except.ok [] = Except.ok values ↔ List.Forall₂ _ [] values
    rw [List.forall₂_nil_left_iff, Except.ok.injEq, eq_comm]
  | cons line rest ih =>
    unfold readLines
    cases hblank : Text.isBlankText line with
    | true =>
      rw [if_pos rfl, List.filter_cons_of_neg (by simp [hblank])]
      exact ih
    | false =>
      rw [if_neg Bool.false_ne_true, List.filter_cons_of_pos (by simp [hblank]),
        List.forall₂_cons_left_iff]
      cases hread : read line with
      | error fault => simp
      | ok value =>
        dsimp only
        rw [map_eq_ok_iff]
        constructor
        · rintro ⟨others, hothers, rfl⟩
          exact ⟨value, others, rfl, ih.1 hothers, rfl⟩
        · rintro ⟨first, others, hfirst, hothers, rfl⟩
          obtain rfl := Except.ok.inj hfirst
          exact ⟨others, ih.2 hothers, rfl⟩

/-- What is read from lines is read from one of them. -/
theorem exists_of_mem_readLines {α : Type} {read : String → Except LineFault α} {number : Nat}
    {lines : List String} {values : List α} (h : readLines read number lines = .ok values)
    {value : α} (hv : value ∈ values) : ∃ line ∈ lines, read line = .ok value := by
  obtain ⟨line, hline, hread⟩ := exists_of_mem_forall₂ (readLines_eq_ok_iff.1 h) hv
  exact ⟨line, (List.mem_filter.1 hline).1, hread⟩

/-- A rule that is read from a line fits on a line, and it is not marked as that of a root. -/
theorem fitsLine_of_readRuleLine {line : String} (h : readRuleLine line = .ok rule) :
    rule.FitsLine ∧ rule.top = false := by
  obtain ⟨cost, lhs, rhs, -, -, hl, hr, hrule⟩ := readRuleLine_eq_ok_iff.1 h
  have hplain : (Rule.plain ⟨Text.words lhs⟩ ⟨Text.words rhs⟩ rule.cost).Plain :=
    ⟨fun symbol hs => Text.isWord_of_mem_words hs, fun symbol hs => Text.isWord_of_mem_words hs⟩
  rw [hrule]
  exact ⟨⟨hplain, hl, hr.imp beq_iff_eq.2 beq_iff_eq.2, rfl⟩, rfl⟩

/-- A word that is read from a line fits on a line with the rules of its parts of speech. -/
theorem fitsWordLine_of_readWordLine {line : String} (hfeed : '\n' ∉ line.toList)
    {entries : List (TagCost Float)} (h : readWordLine line = .ok (word, entries)) :
    FitsWordLine word (entries.map (TagCost.rule word)) := by
  have hline := readWordLine_eq_ok_iff.1 h
  have hne := hline.ne_nil
  obtain ⟨rest, htab, rfl, -, hpairs⟩ := hline
  refine ⟨htab, fun hf => hfeed ?_, mt List.map_eq_nil_iff.1 hne, fun rule hr => ?_⟩
  · rw [String.append_assoc, String.toList_append]
    exact List.mem_append_left _ hf
  · obtain ⟨entry, hentry, rfl⟩ := List.mem_map.1 hr
    exact ⟨entry.tag, Text.isWord_of_mem_words (hpairs.tag_mem entry hentry), rfl⟩

end Grammar

end Constituency
