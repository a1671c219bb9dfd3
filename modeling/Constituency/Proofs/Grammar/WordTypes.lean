import Constituency.Proofs.Grammar.Partition
import Mathlib.Tactic.NormNum

/-!
# The smoothing list counts word types

A word type is a part of speech and a word that has been seen under it, however often. The lexicon
of an estimated grammar has one rule for every word type (`lexicalTags_estimate_perm`), so the rule
of a part of speech for unknown words is priced by its share of the word types
(`smoothed_estimate`).
-/

namespace Constituency

variable {κ : Type}

/-- A rule whose symbols are words and which, if it is lexical, rewrites a part of speech to a
word. -/
structure Rule.Typed (rule : Rule κ) : Prop extends rule.Plain where
  /-- There is one symbol on either side of a lexical rule. -/
  pair : rule.lexical = true → rule.lhs.size = 1 ∧ rule.rhs.size = 1

instance (rule : Rule κ) : Decidable rule.Typed :=
  decidable_of_iff (rule.Plain ∧ (rule.lexical = true → rule.lhs.size = 1 ∧ rule.rhs.size = 1))
    ⟨fun h => ⟨h.1, h.2⟩, fun h => ⟨h.toPlain, h.pair⟩⟩

namespace Grammar

open Rule (identities everLexical everLexical_iff mem_identities nodup_identities)

/-- The word types of counted rules: the texts of the lexical ones. -/
def wordTypes (counted : List (Rule κ)) : Finset (String × String) :=
  ((counted.filter Rule.lexical).map Rule.key).toFinset

/-- The words of a part of speech. -/
def wordsUnder (types : Finset (String × String)) (tag : String) : Finset String :=
  (types.filter fun type => type.1 = tag).image Prod.snd

/-- The exact share of a part of speech in the word types. -/
def typeShare (types : Finset (String × String)) (tag : String) : ℚ :=
  (wordsUnder types tag).card / types.card

/-- What a grammar says of unknown words if its smoothing list lists certain parts of speech. -/
structure Smoothed [Cost κ] (g : Grammar κ) (types : Finset (String × String))
    (tags : List String) : Prop where
  /-- No part of speech is listed twice. -/
  distinct : tags.Nodup
  /-- Those that have a word are listed. -/
  listed : ∀ tag, tag ∈ tags ↔ ∃ word, (tag, word) ∈ types
  /-- Each has a rule, which is priced by the number of its words and that of all word types. -/
  rules : g.smoothingRules = tags.map fun tag =>
    .ofWord tag unknownWord (Cost.ofShare (wordsUnder types tag).card types.card)
  /-- The share of a part of speech is a positive one, and at most the whole. -/
  share : ∀ tag ∈ tags, 0 < typeShare types tag ∧ typeShare types tag ≤ 1
  /-- The shares make up the whole. -/
  sum_share : tags ≠ [] → (tags.map (typeShare types)).sum = 1

/-! ## Word types -/

section WordTypes

/-- A word type is the identity of a lexical rule. -/
theorem mem_wordTypes {counted : List (Rule κ)} {type : String × String} :
    type ∈ wordTypes counted ↔ ∃ rule ∈ counted, rule.key = type ∧ rule.lexical = true := by
  simp only [wordTypes, List.mem_toFinset, List.mem_map, List.mem_filter, and_assoc,
    and_comm (a := _ = type)]

/-- There are no word types exactly if no rule is lexical. -/
theorem wordTypes_eq_empty_iff {counted : List (Rule κ)} :
    wordTypes counted = ∅ ↔ ∀ rule ∈ counted, rule.lexical = false := by
  rw [wordTypes, List.toFinset_eq_empty_iff, List.map_eq_nil_iff, List.filter_eq_nil_iff]
  simp only [Bool.not_eq_true]

/-- The word types are the counted rules with a lexical occurrence. -/
theorem toFinset_filter_identities (counted : List (Rule κ)) :
    ((identities counted).filter (everLexical counted)).toFinset = wordTypes counted := by
  ext type
  rw [List.mem_toFinset, List.mem_filter, mem_wordTypes, everLexical_iff, mem_identities]
  exact and_iff_right_of_imp fun ⟨rule, hrule, hkey, _⟩ => ⟨rule, hrule, hkey⟩

/-- The words of a part of speech are as many as its word types. -/
theorem card_wordsUnder (types : Finset (String × String)) (tag : String) :
    (wordsUnder types tag).card = (types.filter fun type => type.1 = tag).card := by
  -- Under one part of speech the word tells the word type.
  refine Finset.card_image_of_injOn fun type htype other hother hword => ?_
  have htag := (Finset.mem_filter.1 (Finset.mem_coe.1 htype)).2
  have htag' := (Finset.mem_filter.1 (Finset.mem_coe.1 hother)).2
  exact Prod.ext (htag.trans htag'.symm) hword

/-- Among distinct word types a part of speech stands as often as it has words. -/
theorem count_map_fst {types : List (String × String)} (h : types.Nodup) (tag : String) :
    (types.map Prod.fst).count tag = (wordsUnder types.toFinset tag).card := by
  rw [card_wordsUnder, List.count_eq_countP, List.countP_map, List.countP_eq_length_filter,
    ← List.toFinset_card_of_nodup (h.filter _), List.toFinset_filter]
  refine congrArg Finset.card (Finset.filter_congr fun type _ => ?_)
  rw [Function.comp_apply, beq_iff_eq]

/-- The parts of speech of a list stand in it as often as it is long, all taken together. -/
theorem sum_count_eraseDups (tags : List String) :
    (tags.eraseDups.map tags.count).sum = tags.length := by
  have hperm : tags.eraseDups.Perm tags.dedup := by
    rw [List.perm_ext_iff_of_nodup (OrderedMap.nodup_eraseDups tags) (List.nodup_dedup tags)]
    intro tag
    rw [List.mem_eraseDups, List.mem_dedup]
  rw [(hperm.map tags.count).sum_eq]
  exact List.sum_map_count_dedup_eq_length tags

end WordTypes

/-! ## The parts of speech of the lexicon -/

section Lexicon

variable [Cost κ] {counted : List (Rule κ)}

/-- A priced lexical rule is unary and rewrites the part of speech of its word type. -/
theorem isUnary_and_label_of_mem_priced (htyped : ∀ rule ∈ counted, rule.Typed) {s : Rule κ}
    (h : s ∈ ((empty : Grammar κ).countAll counted).priced) (hlexical : s.lexical = true) :
    s.isUnary = true ∧ s.label? = some s.key.1 := by
  obtain ⟨⟨first, hfirst, hlhs, hrhs⟩, hmark⟩ := exists_mem_of_mem_priced h
  obtain ⟨rule, hrule, hkey, hruleLexical⟩ := hmark.1 hlexical
  -- The first occurrence may have been no lexical one, but it has the same sides.
  have hsides := (htyped rule hrule).sides_eq (htyped first hfirst).toPlain
    (hkey.trans (Rule.key_eq_of_sides hlhs hrhs))
  obtain ⟨htag, hword⟩ := (htyped rule hrule).pair hruleLexical
  rw [hsides.1, ← hlhs] at htag
  rw [hsides.2, ← hrhs] at hword
  obtain ⟨tag, hsymbols⟩ := List.length_eq_one_iff.1 htag
  have htext : s.lhs.text = tag := (congrArg Text.unwords hsymbols).trans (Side.text_single tag)
  refine ⟨beq_iff_eq.2 hword, ?_⟩
  rw [Rule.label?, hsymbols, Rule.key, htext]
  rfl

/-- The lexicon of an estimated grammar has the parts of speech of the word types. -/
theorem lexicalTags_estimate_perm (htyped : ∀ rule ∈ counted, rule.Typed) :
    (lexicalTags (empty.countAll counted).estimate.lexicon).Perm
      (((identities counted).filter (everLexical counted)).map Prod.fst) := by
  let listed := ((empty : Grammar κ).countAll counted).priced.filter Rule.lexical
  -- None of the lexical rules is passed over.
  have hlisted : ∀ s ∈ listed, s.isUnary = true ∧ s.label? = some s.key.1 := by
    intro s hs
    obtain ⟨hpriced, hlexical⟩ := List.mem_filter.1 hs
    exact isUnary_and_label_of_mem_priced htyped hpriced hlexical
  have htags : (listed.filter Rule.isUnary).filterMap Rule.label? =
      (listed.map Rule.key).map Prod.fst := by
    rw [List.filter_eq_self.2 fun s hs => (hlisted s hs).1, List.map_map, ← List.filterMap_eq_map]
    exact List.filterMap_congr fun s hs => (hlisted s hs).2
  have hkeys : listed.map Rule.key = (identities counted).filter (everLexical counted) :=
    map_key_filter_priced counted id
  rw [← hkeys, ← htags]
  exact ((flatten_values_lexiconOf listed).filter _).filterMap _

end Lexicon

/-! ## The smoothing list -/

section Smoothing

variable [Cost κ]

/-- A smoothing list of the parts of speech of distinct word types counts their words. -/
theorem smoothed_of_perm {g : Grammar κ} {tags : List String} (hg : g.smoothing = smoothingOf tags)
    {types : List (String × String)} (hdistinct : types.Nodup)
    (hperm : tags.Perm (types.map Prod.fst)) : g.Smoothed types.toFinset tags.eraseDups := by
  -- Both numbers of a share can be read off the list of parts of speech.
  have hcount : ∀ tag, (wordsUnder types.toFinset tag).card = tags.count tag := fun tag => by
    rw [hperm.count_eq, count_map_fst hdistinct]
  have hlength : types.toFinset.card = tags.length := by
    rw [List.toFinset_card_of_nodup hdistinct, hperm.length_eq, List.length_map]
  have hshare : ∀ tag, typeShare types.toFinset tag = tags.count tag / tags.length := fun tag => by
    rw [typeShare, hcount, hlength]
  refine
    { distinct := OrderedMap.nodup_eraseDups tags
      listed := fun tag => ?_
      rules := ?_
      share := fun tag htag => ?_
      sum_share := fun hne => ?_ }
  · rw [List.mem_eraseDups, hperm.mem_iff, List.mem_map]
    simp only [List.mem_toFinset, Prod.exists, exists_and_right, exists_eq_right]
  · rw [smoothingRules, hg, smoothingOf_eq_map_eraseDups, List.map_map]
    refine List.map_congr_left fun tag _ => ?_
    rw [hcount, hlength]
    rfl
  · have hpos : 0 < tags.count tag := List.count_pos_iff.2 (List.mem_eraseDups.1 htag)
    rw [hshare]
    exact div_pos_and_le_one hpos List.count_le_length
  · have hwhole : tags.length ≠ 0 := by
      rw [Ne, List.length_eq_zero_iff]
      rintro rfl
      exact hne rfl
    rw [funext hshare]
    exact sum_map_div (sum_count_eraseDups tags) hwhole

/-- The word types tell the smoothing list, up to its order. -/
theorem Smoothed.perm {g other : Grammar κ} {types : Finset (String × String)}
    {tags others : List String} (h : g.Smoothed types tags) (ho : other.Smoothed types others) :
    g.smoothingRules.Perm other.smoothingRules := by
  have htags : tags.Perm others := (List.perm_ext_iff_of_nodup h.distinct ho.distinct).2
    fun tag => (h.listed tag).trans (ho.listed tag).symm
  rw [h.rules, ho.rules]
  exact htags.map _

/-- The smoothing list is empty exactly if there are no word types. -/
theorem Smoothed.eq_nil_iff {g : Grammar κ} {types : Finset (String × String)}
    {tags : List String} (h : g.Smoothed types tags) : g.smoothing = [] ↔ types = ∅ := by
  have hnil : g.smoothing = [] ↔ tags = [] := by
    rw [← List.map_eq_nil_iff (f := TagCost.rule unknownWord), ← smoothingRules, h.rules,
      List.map_eq_nil_iff]
  rw [hnil, List.eq_nil_iff_forall_not_mem, Finset.eq_empty_iff_forall_notMem]
  constructor
  · exact fun hnone type htype => hnone type.1 ((h.listed type.1).2 ⟨type.2, htype⟩)
  · rintro hnone tag htag
    obtain ⟨word, htype⟩ := (h.listed tag).1 htag
    exact hnone _ htype

/-- The smoothing list of an estimated grammar counts word types. -/
theorem exists_smoothed {counted : List (Rule κ)} (htyped : ∀ rule ∈ counted, rule.Typed) :
    ∃ tags, (empty.countAll counted).estimate.Smoothed (wordTypes counted) tags := by
  rw [← toFinset_filter_identities]
  exact ⟨_, smoothed_of_perm rfl ((nodup_identities counted).filter _)
    (lexicalTags_estimate_perm htyped)⟩

/-- After estimation every part of speech with a lexical rule has one rule for unknown words, priced
by its share of the word types. So there is none exactly if no lexical rule has been counted, and
it does not matter how often each was. -/
theorem smoothed_estimate {counted : List (Rule κ)} (htyped : ∀ rule ∈ counted, rule.Typed) :
    (∃ tags, (empty.countAll counted).estimate.Smoothed (wordTypes counted) tags) ∧
      ((empty.countAll counted).estimate.smoothing = [] ↔
        ∀ rule ∈ counted, rule.lexical = false) ∧
      ∀ others : List (Rule κ), (∀ rule ∈ others, rule.Typed) →
        wordTypes others = wordTypes counted →
          (empty.countAll counted).estimate.smoothingRules.Perm
            (empty.countAll others).estimate.smoothingRules := by
  obtain ⟨tags, hsmoothed⟩ := exists_smoothed htyped
  refine ⟨⟨tags, hsmoothed⟩, ?_, fun others hothers htypes => ?_⟩
  · rw [hsmoothed.eq_nil_iff, wordTypes_eq_empty_iff]
  · obtain ⟨otherTags, hother⟩ := exists_smoothed hothers
    rw [htypes] at hother
    exact hsmoothed.perm hother

end Smoothing

/-- Words of which one has been seen twice under one part of speech and once under another, one is
that which stands for the unknown ones, and one first occurred as a category. -/
def seenWords : List (Rule WholeCost) :=
  [.plain ⟨["NP"]⟩ ⟨["DT", "NN"]⟩ ⟨0⟩, .plain ⟨["DT"]⟩ ⟨["the"]⟩ ⟨0⟩, .ofWord "NN" "dog" ⟨0⟩,
    .ofWord "VB" "dog" ⟨0⟩, .ofWord "NN" "dog" ⟨0⟩, .ofWord "NN" "UNKNOWN" ⟨0⟩,
    .ofWord "DT" "the" ⟨0⟩]

/-- The same word types, each once. -/
def seenOnce : List (Rule WholeCost) :=
  [.ofWord "VB" "dog" ⟨0⟩, .ofWord "NN" "UNKNOWN" ⟨0⟩, .ofWord "DT" "the" ⟨0⟩,
    .ofWord "NN" "dog" ⟨0⟩]

/-- There are four word types, two of them with the same part of speech. -/
theorem smoothed_estimate_seenWords :
    (∀ rule ∈ seenWords, rule.Typed) ∧ (∀ rule ∈ seenOnce, rule.Typed) ∧
      wordTypes seenWords = {("NN", "dog"), ("VB", "dog"), ("NN", "UNKNOWN"), ("DT", "the")} ∧
      (∃ tags, (empty.countAll seenWords).estimate.Smoothed (wordTypes seenWords) tags) ∧
      typeShare (wordTypes seenWords) "NN" = 1 / 2 ∧
      typeShare (wordTypes seenWords) "DT" = 1 / 4 ∧
      (empty.countAll seenWords).estimate.smoothing ≠ [] ∧
      (empty.countAll seenWords).estimate.smoothingRules.Perm
        (empty.countAll seenOnce).estimate.smoothingRules := by
  have htyped : ∀ rule ∈ seenWords, rule.Typed := by decide +kernel
  have honce : ∀ rule ∈ seenOnce, rule.Typed := by decide +kernel
  obtain ⟨hsmoothed, hnil, hperm⟩ := smoothed_estimate htyped
  have htypes : (wordTypes seenWords).card = 4 := by decide +kernel
  have hNN : (wordsUnder (wordTypes seenWords) "NN").card = 2 := by decide +kernel
  have hDT : (wordsUnder (wordTypes seenWords) "DT").card = 1 := by decide +kernel
  refine ⟨htyped, honce, by decide +kernel, hsmoothed, ?_, ?_, fun hempty => ?_, ?_⟩
  · rw [typeShare, htypes, hNN]
    norm_num
  · rw [typeShare, htypes, hDT]
    norm_num
  · have hdog : .ofWord "NN" "dog" ⟨0⟩ ∈ seenWords := by decide +kernel
    exact absurd (hnil.1 hempty _ hdog) nofun
  · exact hperm seenOnce honce (by decide +kernel)

end Grammar

end Constituency
