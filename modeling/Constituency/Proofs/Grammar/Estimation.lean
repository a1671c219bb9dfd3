import Constituency.Grammar.Basic
import Constituency.Proofs.OrderedMap
import Constituency.Proofs.Rule
import Mathlib.Data.List.Induction

/-!
# What is counted and estimated

Counting a list of rules gives each rule the tally of its occurrences (`find?_counts_countAll`): it
is kept as it first occurred, with every mark that one of its occurrences bore. Estimation prices
the counted rules (`exists_mem_of_mem_priced`) and puts each, by its mark, into the syntactic rules
or into the lexicon, where the rules of a word are those with that text on the right
(`getD_find?_lexiconOf`).

So a rule that occurred both as a lexical and as a syntactic one is lost among the syntactic rules.
Where that never happens (`Rule.Unmixed`) no counted rule is lost (`exists_mem_syntactic`,
`exists_find?_lexicon`).
-/

namespace Constituency

variable {κ : Type}

/-- The tally of the occurrences of one rule. -/
def Tally.ofOccurrences : List (Rule κ) → Option (Tally κ)
  | [] => none
  | first :: rest =>
    some
      { rule := { first with
          lexical := (first :: rest).any Rule.lexical
          top := (first :: rest).any Rule.top }
        count := (first :: rest).length }

/-- One more occurrence. -/
theorem Tally.add_ofOccurrences (occurrences : List (Rule κ)) (rule : Rule κ) :
    some (Tally.add rule (Tally.ofOccurrences occurrences)) =
      Tally.ofOccurrences (occurrences ++ [rule]) := by
  cases occurrences with
  | nil => simp [ofOccurrences, Tally.add]
  | cons first rest => simp [ofOccurrences, Tally.add, Bool.or_assoc]

namespace Grammar

/-- Counting one rule after others. -/
theorem countAll_append (g : Grammar κ) (first second : List (Rule κ)) :
    g.countAll (first ++ second) = (g.countAll first).countAll second := List.foldl_append

/-- Counting one more rule changes its tally. -/
theorem counts_countAll_append_singleton (g : Grammar κ) (rules : List (Rule κ)) (rule : Rule κ) :
    (g.countAll (rules ++ [rule])).counts =
      (g.countAll rules).counts.alter rule.key (Tally.add rule) := by
  rw [countAll_append]
  rfl

/-- After counting, a rule has the tally of its occurrences. -/
theorem find?_counts_countAll (rules : List (Rule κ)) (key : RuleKey) :
    ((empty : Grammar κ).countAll rules).counts.find? key =
      Tally.ofOccurrences (rules.filter (·.key == key)) := by
  induction rules using List.reverseRecOn with
  | nil => rfl
  | append_singleton rules rule ih =>
    rw [counts_countAll_append_singleton, List.filter_append]
    -- The new occurrence belongs to the tally of its own key and to no other.
    by_cases hkey : key = rule.key
    · subst hkey
      rw [OrderedMap.find?_alter_self, ih, Tally.add_ofOccurrences, List.filter_cons,
        beq_self_eq_true, if_pos rfl, List.filter_nil]
    · rw [OrderedMap.find?_alter_of_ne _ hkey, ih, List.filter_cons,
        beq_false_of_ne (Ne.symm hkey), if_neg Bool.false_ne_true, List.filter_nil,
        List.append_nil]

/-- Counting changes one tally after the other. -/
theorem counts_countAll (g : Grammar κ) (rules : List (Rule κ)) :
    (g.countAll rules).counts =
      rules.foldl (fun counts rule => counts.alter rule.key (Tally.add rule)) g.counts :=
  (List.foldl_hom counts fun _ _ => rfl).symm

/-- The counted rules are distinct. -/
theorem nodup_keys_countAll (rules : List (Rule κ)) :
    ((empty : Grammar κ).countAll rules).counts.keys.Nodup := by
  rw [counts_countAll]
  exact OrderedMap.nodup_keys_foldl_alter Rule.key Tally.add rules

/-- What the tally of a rule says: how it first occurred, and whether an occurrence was lexical. -/
theorem tally_spec {rules : List (Rule κ)} {key : RuleKey} {tally : Tally κ}
    (h : Tally.ofOccurrences (rules.filter (·.key == key)) = some tally) :
    (∃ rule ∈ rules, rule.key = key ∧ tally.rule.lhs = rule.lhs ∧ tally.rule.rhs = rule.rhs) ∧
      (tally.rule.lexical = true ↔ ∃ rule ∈ rules, rule.key = key ∧ rule.lexical = true) := by
  cases hf : rules.filter (·.key == key) with
  | nil =>
    rw [hf] at h
    exact absurd h nofun
  | cons first rest =>
    -- The tally is kept over the occurrences of the key, in their order.
    have hmem : ∀ rule, rule ∈ first :: rest ↔ rule ∈ rules ∧ rule.key = key := by
      intro rule
      rw [← hf, List.mem_filter, beq_iff_eq]
    rw [hf] at h
    obtain rfl := Option.some.inj h
    obtain ⟨hfirst, hkey⟩ := (hmem first).1 List.mem_cons_self
    refine ⟨⟨first, hfirst, hkey, rfl, rfl⟩, ?_⟩
    dsimp only
    rw [List.any_eq_true]
    constructor
    · rintro ⟨rule, hr, hlexical⟩
      obtain ⟨hr, hkey⟩ := (hmem rule).1 hr
      exact ⟨rule, hr, hkey, hlexical⟩
    · rintro ⟨rule, hr, hkey, hlexical⟩
      exact ⟨rule, (hmem rule).2 ⟨hr, hkey⟩, hlexical⟩

/-- What a rule is listed under identifies it. -/
theorem key_of_mem_counts {rules : List (Rule κ)} {key : RuleKey} {tally : Tally κ}
    (h : (key, tally) ∈ ((empty : Grammar κ).countAll rules).counts.entries) :
    tally.rule.key = key := by
  rw [OrderedMap.mem_entries_iff (nodup_keys_countAll rules), find?_counts_countAll] at h
  obtain ⟨⟨rule, -, hkey, hlhs, hrhs⟩, -⟩ := tally_spec h
  rw [← hkey, Rule.key_eq_of_sides hlhs hrhs]

section Estimation

variable [Cost κ]

/-- A priced rule is one of those counted, and it is lexical if an occurrence of it was. -/
theorem exists_mem_of_mem_priced {rules : List (Rule κ)} {s : Rule κ}
    (h : s ∈ ((empty : Grammar κ).countAll rules).priced) :
    (∃ rule ∈ rules, s.lhs = rule.lhs ∧ s.rhs = rule.rhs) ∧
      (s.lexical = true ↔ ∃ rule ∈ rules, rule.key = s.key ∧ rule.lexical = true) := by
  obtain ⟨⟨key, tally⟩, hentry, rfl⟩ := List.mem_map.1 h
  obtain rfl := key_of_mem_counts hentry
  rw [OrderedMap.mem_entries_iff (nodup_keys_countAll rules), find?_counts_countAll] at hentry
  obtain ⟨⟨rule, hr, -, hlhs, hrhs⟩, hlexical⟩ := tally_spec hentry
  exact ⟨⟨rule, hr, hlhs, hrhs⟩, hlexical⟩

/-- Every counted rule is the same as a priced one. -/
theorem exists_mem_priced {rules : List (Rule κ)} {rule : Rule κ} (h : rule ∈ rules) :
    ∃ s ∈ ((empty : Grammar κ).countAll rules).priced, s.key = rule.key := by
  have hmem : rule ∈ rules.filter (·.key == rule.key) := List.mem_filter.2 ⟨h, beq_self_eq_true _⟩
  obtain ⟨first, rest, hf⟩ := List.exists_cons_of_ne_nil (List.ne_nil_of_mem hmem)
  have hfind := find?_counts_countAll rules rule.key
  rw [hf] at hfind
  have hentry := (OrderedMap.mem_entries_iff (nodup_keys_countAll rules)).2 hfind
  have hfirst : first ∈ rules.filter (·.key == rule.key) := hf ▸ List.mem_cons_self
  have hkey : first.key = rule.key := eq_of_beq (List.mem_filter.1 hfirst).2
  exact ⟨_, List.mem_map.2 ⟨_, hentry, rfl⟩, hkey⟩

/-- Among rules whose symbols are words, every counted one has the sides of a priced one. -/
theorem exists_mem_priced_of_plain {rules : List (Rule κ)} (hplain : ∀ rule ∈ rules, rule.Plain)
    {rule : Rule κ} (h : rule ∈ rules) :
    ∃ s ∈ ((empty : Grammar κ).countAll rules).priced, s.lhs = rule.lhs ∧ s.rhs = rule.rhs := by
  obtain ⟨s, hs, hkey⟩ := exists_mem_priced h
  obtain ⟨⟨first, hfirst, hlhs, hrhs⟩, -⟩ := exists_mem_of_mem_priced hs
  -- The tally keeps the first occurrence, which has the texts of the rule and so its sides.
  have hsame : first.key = rule.key := (Rule.key_eq_of_sides hlhs hrhs).symm.trans hkey
  obtain ⟨hl, hr⟩ := (hplain first hfirst).sides_eq (hplain rule h) hsame
  exact ⟨s, hs, hlhs.trans hl, hrhs.trans hr⟩

omit [Cost κ] in
/-- The rules of a word in the lexicon of a list of rules are those with that text on the right. -/
theorem getD_find?_lexiconOf (rules : List (Rule κ)) (word : String) :
    ((lexiconOf rules).find? word).getD [] = rules.filter (·.rhs.text == word) :=
  (OrderedMap.getD_find?_foldl_append (fun rule : Rule κ => rule.rhs.text) ([·]) rules word).trans
    (List.flatMap_singleton' _)

omit [Cost κ] in
/-- The words of the lexicon of a list of rules are distinct. -/
theorem nodup_keys_lexiconOf (rules : List (Rule κ)) : (lexiconOf rules).keys.Nodup :=
  OrderedMap.nodup_keys_foldl_alter (fun rule : Rule κ => rule.rhs.text)
    (fun rule present => present.getD [] ++ [rule]) rules

omit [Cost κ] in
/-- The rules of a word in the lexicon of a list of rules, if the word is known. -/
theorem find?_lexiconOf {rules found : List (Rule κ)} {word : String}
    (h : (lexiconOf rules).find? word = some found) :
    found = rules.filter (·.rhs.text == word) := by
  rw [← getD_find?_lexiconOf, h, Option.getD_some]

omit [Cost κ] in
/-- A known word of the lexicon of a list of rules has a rule. -/
theorem ne_nil_of_find?_lexiconOf {rules found : List (Rule κ)} {word : String}
    (h : (lexiconOf rules).find? word = some found) : found ≠ [] := by
  induction rules using List.reverseRecOn generalizing found with
  | nil => exact absurd h nofun
  | append_singleton rules rule ih =>
    rw [lexiconOf, List.foldl_append] at h
    by_cases hword : word = rule.rhs.text
    · subst hword
      rw [List.foldl_cons, List.foldl_nil, OrderedMap.append, OrderedMap.find?_alter_self] at h
      obtain rfl := Option.some.inj h
      exact List.append_ne_nil_of_right_ne_nil _ (List.cons_ne_nil _ _)
    · rw [List.foldl_cons, List.foldl_nil, OrderedMap.append,
        OrderedMap.find?_alter_of_ne _ hword] at h
      exact ih h

omit [Cost κ] in
/-- The text on the right of a rule is a known word of the lexicon of a list with the rule. -/
theorem exists_find?_lexiconOf {rules : List (Rule κ)} {rule : Rule κ} (h : rule ∈ rules) :
    ∃ found, (lexiconOf rules).find? rule.rhs.text = some found ∧ rule ∈ found := by
  have hmem : rule ∈ ((lexiconOf rules).find? rule.rhs.text).getD [] := by
    rw [getD_find?_lexiconOf]
    exact List.mem_filter.2 ⟨h, beq_self_eq_true _⟩
  cases hfind : (lexiconOf rules).find? rule.rhs.text with
  | none =>
    rw [hfind] at hmem
    exact absurd hmem List.not_mem_nil
  | some found =>
    rw [hfind] at hmem
    exact ⟨found, rfl, hmem⟩

/-! ## Parts of speech -/

/-- How often each part of speech stands in a list. -/
def tagCounts (tags : List String) : OrderedMap String Nat :=
  tags.foldl (fun counts tag => counts.alter tag fun present => present.getD 0 + 1) .empty

/-- The counts with one more part of speech. -/
theorem tagCounts_append_singleton (tags : List String) (last : String) :
    tagCounts (tags ++ [last]) = (tagCounts tags).alter last fun present => present.getD 0 + 1 := by
  rw [tagCounts, List.foldl_append]
  rfl

/-- No part of speech is listed twice. -/
theorem nodup_keys_tagCounts (tags : List String) : (tagCounts tags).keys.Nodup :=
  OrderedMap.nodup_keys_foldl_alter id (fun _ present => present.getD 0 + 1) tags

/-- A part of speech is counted as often as it stands in the list. -/
theorem find?_tagCounts (tags : List String) (tag : String) :
    (tagCounts tags).find? tag = if tag ∈ tags then some (tags.count tag) else none := by
  induction tags using List.reverseRecOn with
  | nil => rfl
  | append_singleton tags last ih =>
    rw [tagCounts_append_singleton, List.count_append, List.count_singleton]
    by_cases hlast : tag = last
    · subst hlast
      have hbefore : ((tagCounts tags).find? tag).getD 0 = tags.count tag := by
        rw [ih]
        split
        · rfl
        · rename_i hnew
          exact (List.count_eq_zero.2 hnew).symm
      have hmem : tag ∈ tags ++ [tag] := List.mem_append_right _ (List.mem_singleton_self tag)
      rw [OrderedMap.find?_alter_self, hbefore, if_pos hmem, beq_self_eq_true, if_pos rfl]
    · have hmem : tag ∈ tags ++ [last] ↔ tag ∈ tags := by simp [hlast]
      rw [OrderedMap.find?_alter_of_ne _ hlast, ih, if_congr hmem rfl rfl,
        beq_false_of_ne (Ne.symm hlast), if_neg Bool.false_ne_true, Nat.add_zero]

/-- The smoothing list prices the counted parts of speech. -/
theorem smoothingOf_eq_map (tags : List String) :
    (smoothingOf tags : List (TagCost κ)) = (tagCounts tags).entries.map fun entry =>
      ⟨entry.1, Cost.ofShare entry.2 tags.length⟩ := rfl

/-- The smoothing list has the parts of speech in the order of first occurrences, each priced by how
often it stands in the list. -/
theorem smoothingOf_eq_map_eraseDups (tags : List String) :
    (smoothingOf tags : List (TagCost κ)) = tags.eraseDups.map fun tag =>
      ⟨tag, Cost.ofShare (tags.count tag) tags.length⟩ := by
  have hkeys : (tagCounts tags).keys = tags.eraseDups :=
    (OrderedMap.keys_foldl_alter id (fun _ present => present.getD 0 + 1) tags).trans
      (congrArg List.eraseDups (List.map_id tags))
  rw [smoothingOf_eq_map, OrderedMap.entries_eq_map (nodup_keys_tagCounts tags) 0, hkeys,
    List.map_map]
  refine List.map_congr_left fun tag htag => ?_
  rw [Function.comp_apply, find?_tagCounts, if_pos (List.mem_eraseDups.1 htag), Option.getD_some]

/-- The smoothing list has a part of speech if there is one. -/
theorem smoothingOf_ne_nil {tags : List String} (h : tags ≠ []) :
    (smoothingOf tags : List (TagCost κ)) ≠ [] := by
  obtain ⟨init, last, rfl⟩ := (List.eq_nil_or_concat tags).resolve_left h
  rw [smoothingOf_eq_map, List.concat_eq_append, tagCounts_append_singleton]
  exact fun hnil => OrderedMap.entries_alter_ne_nil _ _ _ (List.map_eq_nil_iff.1 hnil)

/-- The smoothing list has only the parts of speech that there are. -/
theorem mem_of_mem_smoothingOf {tags : List String} {entry : TagCost κ}
    (h : entry ∈ smoothingOf tags) : entry.tag ∈ tags := by
  rw [smoothingOf_eq_map] at h
  obtain ⟨⟨tag, count⟩, hentry, rfl⟩ := List.mem_map.1 h
  rw [OrderedMap.mem_entries_iff (nodup_keys_tagCounts tags), find?_tagCounts] at hentry
  split at hentry
  · rename_i hmem
    exact hmem
  · exact absurd hentry (Option.some_ne_none count).symm

/-! ## The estimated grammar -/

/-- A syntactic rule of an estimated grammar has the sides of a counted one. -/
theorem exists_of_mem_syntactic {rules : List (Rule κ)} {s : Rule κ}
    (h : s ∈ (empty.countAll rules).estimate.syntactic) :
    ∃ rule ∈ rules, s.lhs = rule.lhs ∧ s.rhs = rule.rhs :=
  (exists_mem_of_mem_priced (List.mem_filter.1 h).1).1

/-- A rule of a word in an estimated grammar has the sides of a counted one. -/
theorem exists_of_find?_lexicon {rules found : List (Rule κ)} {word : String}
    (h : (empty.countAll rules).estimate.lexicon.find? word = some found) {s : Rule κ}
    (hs : s ∈ found) : ∃ rule ∈ rules, s.lhs = rule.lhs ∧ s.rhs = rule.rhs := by
  rw [find?_lexiconOf h] at hs
  have hpriced := (List.mem_filter.1 (List.mem_filter.1 hs).1).1
  exact (exists_mem_of_mem_priced hpriced).1

/-- No counted rule that is the same as a syntactic one was lexical. -/
theorem lexical_of_mem_syntactic {rules : List (Rule κ)} {s : Rule κ}
    (h : s ∈ (empty.countAll rules).estimate.syntactic) {rule : Rule κ} (hr : rule ∈ rules)
    (hkey : rule.key = s.key) : rule.lexical = false := by
  obtain ⟨hpriced, hsyntactic⟩ := List.mem_filter.1 h
  rw [Bool.eq_false_iff]
  intro hlexical
  have hmark := (exists_mem_of_mem_priced hpriced).2.2 ⟨rule, hr, hkey, hlexical⟩
  rw [hmark] at hsyntactic
  exact absurd hsyntactic nofun

/-- Among rules whose symbols are words, a rule of a word has the sides of a counted lexical one. -/
theorem exists_lexical_of_find?_lexicon {rules found : List (Rule κ)} {word : String}
    (hplain : ∀ rule ∈ rules, rule.Plain)
    (h : (empty.countAll rules).estimate.lexicon.find? word = some found) {s : Rule κ}
    (hs : s ∈ found) :
    ∃ rule ∈ rules, rule.lexical = true ∧ s.lhs = rule.lhs ∧ s.rhs = rule.rhs := by
  rw [find?_lexiconOf h] at hs
  obtain ⟨hpriced, hlexical⟩ := List.mem_filter.1 (List.mem_filter.1 hs).1
  obtain ⟨⟨first, hfirst, hlhs, hrhs⟩, hmark⟩ := exists_mem_of_mem_priced hpriced
  obtain ⟨rule, hr, hkey, hlexical⟩ := hmark.1 hlexical
  -- The rule that was lexical has the texts of the one that was kept, and so its sides.
  obtain ⟨hl, hr'⟩ := (hplain rule hr).sides_eq (hplain first hfirst)
    (hkey.trans (Rule.key_eq_of_sides hlhs hrhs))
  exact ⟨rule, hr, hlexical, hlhs.trans hl.symm, hrhs.trans hr'.symm⟩

/-- A counted rule that never occurred as a lexical one is a syntactic rule. -/
theorem exists_mem_syntactic_of_key {rules : List (Rule κ)} (hplain : ∀ rule ∈ rules, rule.Plain)
    {rule : Rule κ} (h : rule ∈ rules)
    (hsyntactic : ∀ other ∈ rules, other.key = rule.key → other.lexical = false) :
    ∃ s ∈ (empty.countAll rules).estimate.syntactic, s.lhs = rule.lhs ∧ s.rhs = rule.rhs := by
  obtain ⟨s, hs, hlhs, hrhs⟩ := exists_mem_priced_of_plain hplain h
  refine ⟨s, List.mem_filter.2 ⟨hs, ?_⟩, hlhs, hrhs⟩
  rw [Bool.not_eq_true', Bool.eq_false_iff]
  intro hlexical
  -- A lexical mark would come from an occurrence of the same rule that was lexical.
  obtain ⟨other, ho, hkey, hother⟩ := (exists_mem_of_mem_priced hs).2.1 hlexical
  have hmark := hsyntactic other ho (hkey.trans (Rule.key_eq_of_sides hlhs hrhs))
  rw [hother] at hmark
  exact absurd hmark nofun

/-- If no rule is both lexical and syntactic, every counted syntactic rule is kept. -/
theorem exists_mem_syntactic {rules : List (Rule κ)} (hplain : ∀ rule ∈ rules, rule.Plain)
    (hunmixed : Rule.Unmixed rules) {rule : Rule κ} (h : rule ∈ rules)
    (hsyntactic : rule.lexical = false) :
    ∃ s ∈ (empty.countAll rules).estimate.syntactic, s.lhs = rule.lhs ∧ s.rhs = rule.rhs :=
  exists_mem_syntactic_of_key hplain h fun other ho hkey =>
    (hunmixed other ho rule h hkey).trans hsyntactic

/-- A counted lexical rule is one of the rules of its word. -/
theorem exists_find?_lexicon {rules : List (Rule κ)} (hplain : ∀ rule ∈ rules, rule.Plain)
    {rule : Rule κ} (h : rule ∈ rules) (hlexical : rule.lexical = true) :
    ∃ found, (empty.countAll rules).estimate.lexicon.find? rule.rhs.text = some found ∧
      ∃ s ∈ found, s.lhs = rule.lhs ∧ s.rhs = rule.rhs := by
  obtain ⟨s, hs, hlhs, hrhs⟩ := exists_mem_priced_of_plain hplain h
  have hmark := (exists_mem_of_mem_priced hs).2.2
    ⟨rule, h, (Rule.key_eq_of_sides hlhs hrhs).symm, hlexical⟩
  obtain ⟨found, hfound, hmem⟩ := exists_find?_lexiconOf (List.mem_filter.2 ⟨hs, hmark⟩)
  rw [hrhs] at hfound
  exact ⟨found, hfound, s, hmem, hlhs, hrhs⟩

/-- An estimated grammar has parts of speech for unknown words if a lexical rule has been
counted. -/
theorem smoothing_estimate_ne_nil {rules : List (Rule κ)} (hproper : ∀ rule ∈ rules, rule.Proper)
    {rule : Rule κ} (h : rule ∈ rules) (hlexical : rule.lexical = true) :
    (empty.countAll rules).estimate.smoothing ≠ [] := by
  obtain ⟨found, hfound, s, hs, hlhs, hrhs⟩ :=
    exists_find?_lexicon (fun r hr => (hproper r hr).toPlain) h hlexical
  obtain ⟨tag, htag⟩ := List.length_eq_one_iff.1 (hproper rule h).single
  have hunary : s.isUnary = true := by
    rw [Rule.isUnary, hrhs, Side.size, (hproper rule h).lexical hlexical, beq_self_eq_true]
  have hlabel : s.label? = some tag := by
    rw [Rule.label?, hlhs, htag]
    rfl
  refine smoothingOf_ne_nil (List.ne_nil_of_mem (a := tag) ?_)
  refine List.mem_filterMap.2 ⟨s, List.mem_filter.2 ⟨?_, hunary⟩, hlabel⟩
  exact List.mem_flatten.2 ⟨found, OrderedMap.mem_values_of_find? hfound, hs⟩

end Estimation

end Grammar

end Constituency
