import Constituency.Grammar.Text
import Constituency.Proofs.Except
import Constituency.Proofs.Text.Lines

/-!
# The form of grammar lines

A line of rules has three fields, of which the first is a cost (`IsRuleLine`); a line of the lexicon
has a word, a tab, and parts of speech with their costs (`IsWordLine`). What is read from a line is
what a line of that form tells (`readRuleLine_eq_ok_iff`, `readWordLine_eq_ok_iff`).
-/

namespace Constituency.Grammar

/-! ## The form of lines -/

/-- A text that is read as a cost, with blanks around it or without. -/
def IsCost (text : String) (cost : Float) : Prop := Decimal.read (Text.trim text) = .ok cost

/-- A line whose fields are certain texts: they hold no tabs, and the line consists of them with
tabs between them. -/
def HasFields (line : String) (texts : List String) : Prop :=
  (∀ text ∈ texts, '\t' ∉ text.toList) ∧ line = "\t".intercalate texts

/-- A line of rules and the rule that it tells: one symbol on the left and one or two on the
right. -/
def IsRuleLine (line : String) (rule : Rule Float) : Prop :=
  ∃ cost lhs rhs, HasFields line [cost, lhs, rhs] ∧ IsCost cost rule.cost ∧
    (Text.words lhs).length = 1 ∧ ((Text.words rhs).length = 1 ∨ (Text.words rhs).length = 2) ∧
    rule = .plain ⟨Text.words lhs⟩ ⟨Text.words rhs⟩ rule.cost

/-- Items of which every second one is a cost, and what they tell. -/
inductive IsPairs : List String → List (TagCost Float) → Prop
  /-- No items. -/
  | nil : IsPairs [] []
  /-- A part of speech, its cost, and further items. -/
  | cons {tag text : String} {cost : Float} {items : List String} {entries : List (TagCost Float)} :
    IsCost text cost → IsPairs items entries →
      IsPairs (tag :: text :: items) (⟨tag, cost⟩ :: entries)

/-- A line of the lexicon and what it tells: a word and, after the first tab, parts of speech with
their costs. -/
def IsWordLine (line : String) (entry : String × List (TagCost Float)) : Prop :=
  ∃ rest, '\t' ∉ entry.1.toList ∧ line = entry.1 ++ "\t" ++ rest ∧ Text.words rest ≠ [] ∧
    IsPairs (Text.words rest) entry.2

/-- A line of rules in the right form. -/
def GoodRuleLine (line : String) : Prop :=
  ∃ cost lhs rhs, HasFields line [cost, lhs, rhs] ∧ (∃ value, IsCost cost value) ∧
    (Text.words lhs).length = 1 ∧ ((Text.words rhs).length = 1 ∨ (Text.words rhs).length = 2)

/-- A line of the lexicon in the right form: after the first tab there is a positive even number of
items, and every second one is a cost. -/
def GoodWordLine (line : String) : Prop :=
  ∃ word rest, '\t' ∉ word.toList ∧ line = word ++ "\t" ++ rest ∧
    0 < (Text.words rest).length ∧ (Text.words rest).length % 2 = 0 ∧
    ∀ place text, (Text.words rest)[2 * place + 1]? = some text → ∃ cost, IsCost text cost

/-- A line of rules in the right form tells a rule. -/
theorem exists_isRuleLine_iff {line : String} :
    (∃ rule, IsRuleLine line rule) ↔ GoodRuleLine line := by
  constructor
  · rintro ⟨rule, cost, lhs, rhs, hfields, hcost, hl, hr, -⟩
    exact ⟨cost, lhs, rhs, hfields, ⟨rule.cost, hcost⟩, hl, hr⟩
  · rintro ⟨cost, lhs, rhs, hfields, ⟨value, hcost⟩, hl, hr⟩
    exact ⟨.plain ⟨Text.words lhs⟩ ⟨Text.words rhs⟩ value, cost, lhs, rhs, hfields, hcost, hl, hr,
      rfl⟩

/-- Items tell parts of speech with their costs if their number is even and every second one is a
cost. -/
theorem exists_isPairs_iff {items : List String} :
    (∃ entries, IsPairs items entries) ↔
      items.length % 2 = 0 ∧
        ∀ place text, items[2 * place + 1]? = some text → ∃ cost, IsCost text cost := by
  constructor
  · rintro ⟨entries, h⟩
    induction h with
    | nil => exact ⟨rfl, fun place text ht => absurd ht (by simp)⟩
    | @cons tag text cost items entries hcost _ ih =>
      refine ⟨by simp only [List.length_cons]; omega, fun place other ho => ?_⟩
      cases place with
      | zero =>
        obtain rfl : text = other := by simpa using ho
        exact ⟨cost, hcost⟩
      | succ place => exact ih.2 place other (by simpa [Nat.mul_succ] using ho)
  · rintro ⟨heven, hcosts⟩
    induction items using readPairs.induct with
    | case1 => exact ⟨[], .nil⟩
    | case2 item => exact absurd heven (by simp)
    | case3 tag text items ih =>
      obtain ⟨cost, hcost⟩ := hcosts 0 text rfl
      obtain ⟨entries, h⟩ := ih (by simp only [List.length_cons] at heven; omega)
        fun place other ho => hcosts (place + 1) other (by simpa [Nat.mul_succ] using ho)
      exact ⟨⟨tag, cost⟩ :: entries, .cons hcost h⟩

/-- A line of the lexicon in the right form tells a word with its parts of speech. -/
theorem exists_isWordLine_iff {line : String} :
    (∃ entry, IsWordLine line entry) ↔ GoodWordLine line := by
  constructor
  · rintro ⟨⟨word, entries⟩, rest, htab, hline, hne, hpairs⟩
    obtain ⟨heven, hcosts⟩ := exists_isPairs_iff.1 ⟨entries, hpairs⟩
    exact ⟨word, rest, htab, hline, List.length_pos_iff.2 hne, heven, hcosts⟩
  · rintro ⟨word, rest, htab, hline, hpos, heven, hcosts⟩
    obtain ⟨entries, hpairs⟩ := exists_isPairs_iff.2 ⟨heven, hcosts⟩
    exact ⟨(word, entries), rest, htab, hline, List.length_pos_iff.1 hpos, hpairs⟩

/-! ## What is read from a line -/

/-- A cost is what the text says. -/
theorem readCost_eq_ok_iff {text : String} {cost : Float} :
    readCost text = .ok cost ↔ IsCost text cost := mapError_eq_ok_iff

/-- A rule is read from a line if the line tells it. -/
theorem readRuleLine_eq_ok_iff {line : String} {rule : Rule Float} :
    readRuleLine line = .ok rule ↔ IsRuleLine line rule := by
  have harity : ∀ {lhs rhs : String} {cost : Float},
      (decide ((Side.ofText lhs).size = 1) &&
        ((Rule.plain (.ofText lhs) (.ofText rhs) cost).isUnary ||
          (Rule.plain (.ofText lhs) (.ofText rhs) cost).isBinary)) = true ↔
      (Text.words lhs).length = 1 ∧
        ((Text.words rhs).length = 1 ∨ (Text.words rhs).length = 2) := by
    intro lhs rhs cost
    rw [Bool.and_eq_true, Bool.or_eq_true, decide_eq_true_eq]
    simp only [Rule.isUnary, Rule.isBinary, Rule.plain, Side.ofText, Side.size, beq_iff_eq]
  constructor
  · intro h
    unfold readRuleLine at h
    split at h
    · rename_i cost lhs rhs hfields
      obtain ⟨value, hvalue, h⟩ := bind_eq_ok_iff.1 h
      dsimp only at h
      split at h
      · rename_i hsides
        obtain rfl := Except.ok.inj h
        obtain ⟨hl, hr⟩ := harity.1 hsides
        exact ⟨cost, lhs, rhs, (Text.fields_eq_iff (List.cons_ne_nil _ _)).1 hfields,
          readCost_eq_ok_iff.1 hvalue, hl, hr, rfl⟩
      · cases h
    · cases h
  · rintro ⟨cost, lhs, rhs, hfields, hcost, hl, hr, hrule⟩
    rw [hrule]
    unfold readRuleLine
    rw [(Text.fields_eq_iff (List.cons_ne_nil _ _)).2 hfields]
    dsimp only
    rw [readCost_eq_ok_iff.2 hcost]
    exact if_pos (harity.2 ⟨hl, hr⟩)

/-- Parts of speech are read from items if the items tell them. -/
theorem readPairs_eq_ok_iff {items : List String} {entries : List (TagCost Float)} :
    readPairs items = .ok entries ↔ IsPairs items entries := by
  constructor
  · intro h
    fun_induction readPairs items generalizing entries with
    | case1 =>
      obtain rfl := Except.ok.inj h
      exact .nil
    | case2 => cases h
    | case3 tag text items ih =>
      obtain ⟨cost, hcost, h⟩ := bind_eq_ok_iff.1 h
      obtain ⟨others, hothers, h⟩ := bind_eq_ok_iff.1 h
      obtain rfl := Except.ok.inj h
      exact .cons (readCost_eq_ok_iff.1 hcost) (ih hothers)
  · intro h
    induction h with
    | nil => rfl
    | cons hcost _ ih =>
      rw [readPairs, readCost_eq_ok_iff.2 hcost, ih]
      rfl

/-- A word with its parts of speech is read from a line if the line tells them. -/
theorem readWordLine_eq_ok_iff {line : String} {entry : String × List (TagCost Float)} :
    readWordLine line = .ok entry ↔ IsWordLine line entry := by
  obtain ⟨word, entries⟩ := entry
  constructor
  · intro h
    unfold readWordLine at h
    split at h
    · cases h
    · rename_i before rest hcut
      dsimp only at h
      split at h
      · cases h
      · rename_i hitems
        rw [Bool.or_eq_true, not_or] at hitems
        obtain ⟨found, hfound, h⟩ := bind_eq_ok_iff.1 h
        obtain ⟨rfl, rfl⟩ := Prod.mk.inj (Except.ok.inj h)
        obtain ⟨htab, hline⟩ := Text.cutAtTab_eq_some_iff.1 hcut
        exact ⟨rest, htab, hline, mt List.isEmpty_iff.2 hitems.1, readPairs_eq_ok_iff.1 hfound⟩
  · rintro ⟨rest, htab, rfl, hne, hpairs⟩
    have heven : (Text.words rest).length % 2 = 0 := (exists_isPairs_iff.1 ⟨entries, hpairs⟩).1
    unfold readWordLine
    rw [Text.cutAtTab_append htab]
    dsimp only
    rw [if_neg (by simp [hne, heven]), readPairs_eq_ok_iff.2 hpairs]
    rfl

/-- A line of the lexicon tells at least one part of speech. -/
theorem IsWordLine.ne_nil {line : String} {entry : String × List (TagCost Float)}
    (h : IsWordLine line entry) : entry.2 ≠ [] := by
  obtain ⟨rest, -, -, hne, hpairs⟩ := h
  intro hnil
  rw [hnil] at hpairs
  cases hitems : Text.words rest with
  | nil => exact hne hitems
  | cons item items =>
    rw [hitems] at hpairs
    cases hpairs

/-- The parts of speech that items tell are among them. -/
theorem IsPairs.tag_mem {items : List String} {entries : List (TagCost Float)}
    (h : IsPairs items entries) : ∀ entry ∈ entries, entry.tag ∈ items := by
  induction h with
  | nil => exact fun entry hentry => absurd hentry List.not_mem_nil
  | cons _ _ ih =>
    intro entry hentry
    rcases List.mem_cons.1 hentry with rfl | hentry
    · exact List.mem_cons_self
    · exact List.mem_cons_of_mem _ (List.mem_cons_of_mem _ (ih entry hentry))

end Constituency.Grammar
