import Constituency.Proofs.Except
import Constituency.Proofs.OrderedMap
import Constituency.Proofs.Rule
import Constituency.Tagging

/-!
# When a word can be tagged

A word has no candidates only if a lexical rule that it needs has no symbol on the left. In a
grammar whose rules have one symbol there (`OneLeft`) every word can be tagged (`exists_tag_eq_ok`).
The parts of speech that a word is given are in the grammar, or they are the two fixed ones of the
tables (`tag_of_mem`).
-/

namespace Constituency

namespace Grammar

variable {κ : Type}

/-- The rules of a grammar have one symbol on the left, the syntactic and the lexical ones. -/
structure OneLeft (g : Grammar κ) : Prop where
  /-- The syntactic rules. -/
  syntactic : ∀ rule ∈ g.syntactic, rule.lhs.symbols.length = 1
  /-- The lexical rules of a word. -/
  lexical : ∀ {word : String} {rules : List (Rule κ)}, g.lexicon.find? word = some rules →
    ∀ rule ∈ rules, rule.lhs.symbols.length = 1

/-- Whether rules have one symbol on the left can be seen from the lists of the lexicon. -/
theorem oneLeft_of_values {g : Grammar κ}
    (syntactic : ∀ rule ∈ g.syntactic, rule.lhs.symbols.length = 1)
    (lexical : ∀ rules ∈ g.lexicon.values, ∀ rule ∈ rules, rule.lhs.symbols.length = 1) :
    g.OneLeft :=
  ⟨syntactic, fun h => lexical _ (OrderedMap.mem_values_of_find? h)⟩

/-- A rule with one symbol on the left gives a candidate. -/
theorem exists_ofRule_eq_ok {rule : Rule κ} (h : rule.lhs.symbols.length = 1)
    (source : TagSource) : ∃ candidate, Candidate.ofRule source rule = .ok candidate := by
  obtain ⟨tag, htag⟩ := Rule.exists_label_iff.2 (List.ne_nil_of_length_eq_add_one h)
  exact ⟨⟨tag, rule.cost, source⟩, map_eq_ok_iff.2 ⟨tag, htag, rfl⟩⟩

/-- The rules that a morphological step finds are those of a word of the lexicon. -/
theorem exists_find?_of_morphology? {g : Grammar κ} {unknown : UnknownWords κ} {word : String}
    {source : TagSource} {rules : List (Rule κ)}
    (h : g.morphology? unknown word = some (source, rules)) :
    ∃ known, g.lexicon.find? known = some rules := by
  unfold morphology? at h
  dsimp only at h
  split at h
  · obtain ⟨found, hfound, he⟩ := Option.map_eq_some_iff.1 h
    obtain rfl := (Prod.mk.inj he).2
    obtain ⟨known, -, hknown⟩ := List.exists_of_findSome?_eq_some hfound
    exact ⟨known, hknown⟩
  · split at h
    · obtain ⟨found, hfound, he⟩ := Option.map_eq_some_iff.1 h
      obtain rfl := (Prod.mk.inj he).2
      exact ⟨_, hfound⟩
    · exact absurd h nofun

/-- If its rules have one symbol on the left, a grammar has candidates for every word. -/
theorem OneLeft.exists_tag_eq_ok [Cost κ] {g : Grammar κ} (h : g.OneLeft)
    (unknown : UnknownWords κ) (word : String) :
    ∃ candidates, g.tag unknown word = .ok candidates := by
  have hrules : ∀ {known : String} {rules : List (Rule κ)} (source : TagSource),
      g.lexicon.find? known = some rules →
      ∃ candidates, rules.mapM (Candidate.ofRule source) = .ok candidates := by
    intro known rules source hknown
    exact exists_mapM_eq_ok fun rule hr => exists_ofRule_eq_ok (h.lexical hknown rule hr) source
  unfold tag
  split
  · rename_i rules hknown
    exact hrules .lexicon hknown
  · unfold tagUnknown
    split
    · rename_i source rules hm
      obtain ⟨known, hknown⟩ := exists_find?_of_morphology? hm
      exact hrules source hknown
    · split
      · exact ⟨_, rfl⟩
      · split
        · exact ⟨_, rfl⟩
        · exact ⟨_, rfl⟩

/-- Where the part of speech of a candidate comes from: a rule of the lexicon, the tables, or the
smoothing list. -/
theorem tag_of_mem [Cost κ] {g : Grammar κ} {unknown : UnknownWords κ} {word : String}
    {candidates : List (Candidate κ)} (h : g.tag unknown word = .ok candidates)
    {candidate : Candidate κ} (hc : candidate ∈ candidates) :
    (∃ known rules, g.lexicon.find? known = some rules ∧
        ∃ rule ∈ rules, rule.label? = some candidate.tag) ∨
      candidate.tag = unknown.cardinalTag ∨ candidate.tag = unknown.properNounTag ∨
      ∃ entry ∈ g.smoothing, entry.tag = candidate.tag := by
  have hrules : ∀ {known : String} {rules : List (Rule κ)} (source : TagSource),
      g.lexicon.find? known = some rules → rules.mapM (Candidate.ofRule source) = .ok candidates →
      ∃ known rules, g.lexicon.find? known = some rules ∧
        ∃ rule ∈ rules, rule.label? = some candidate.tag := by
    intro known rules source hknown hmap
    obtain ⟨rule, hr, hrule⟩ := exists_of_mem_mapM hmap hc
    refine ⟨known, rules, hknown, rule, hr, ?_⟩
    obtain ⟨tag, htag, rfl⟩ := map_eq_ok_iff.1 hrule
    exact Rule.label_eq_ok_iff.1 htag
  unfold tag at h
  split at h
  · rename_i rules hknown
    exact Or.inl (hrules .lexicon hknown h)
  · unfold tagUnknown at h
    split at h
    · rename_i source rules hm
      obtain ⟨known, hknown⟩ := exists_find?_of_morphology? hm
      exact Or.inl (hrules source hknown h)
    · split at h
      · obtain rfl := Except.ok.inj h
        exact Or.inr (Or.inl (congrArg Candidate.tag (List.mem_singleton.1 hc)))
      · split at h
        · obtain rfl := Except.ok.inj h
          exact Or.inr (Or.inr (Or.inl (congrArg Candidate.tag (List.mem_singleton.1 hc))))
        · obtain rfl := Except.ok.inj h
          obtain ⟨entry, hentry, rfl⟩ := List.mem_map.1 hc
          exact Or.inr (Or.inr (Or.inr ⟨entry, hentry, rfl⟩))

/-- A known word has a candidate for each of its rules. -/
theorem OneLeft.exists_candidate [Cost κ] {g : Grammar κ} (h : g.OneLeft)
    (unknown : UnknownWords κ) {word label : String} {rules : List (Rule κ)}
    (hknown : g.lexicon.find? word = some rules) {rule : Rule κ} (hr : rule ∈ rules)
    (hlabel : rule.lhs = Side.single label) :
    ∃ candidates, g.tag unknown word = .ok candidates ∧ ∃ c ∈ candidates, c.tag = label := by
  obtain ⟨candidates, htag⟩ := h.exists_tag_eq_ok unknown word
  refine ⟨candidates, htag, ?_⟩
  rw [tag, hknown] at htag
  obtain ⟨c, hc, hrule⟩ := exists_mem_of_mapM htag hr
  obtain ⟨tag, htag, rfl⟩ := map_eq_ok_iff.1 hrule
  rw [Rule.label_eq_ok_iff, Rule.label?, hlabel] at htag
  exact ⟨_, hc, (Option.some.inj htag).symm⟩

end Grammar

end Constituency
