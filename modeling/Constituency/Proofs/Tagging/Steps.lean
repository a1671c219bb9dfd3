import Constituency.Proofs.Grammar.History
import Constituency.Proofs.Tagging

/-!
# The steps of tagging

A word that the lexicon does not hold goes through several steps, and the first one that gives
candidates decides (`Gives`). Tagging comes to what the steps give (`tag_eq_ok_iff`). Every grammar
that comes about by operations on rules with one symbol on the left has a rule for each word that it
knows (`Serviceable.after`), so if there is a part of speech of unknown words, every word has a
candidate (`tag_follows_steps`).
-/

namespace Constituency

variable {κ : Type}

/-! ## The letters of a word -/

open Text.Grapheme (clusters)

/-- A word is divided before its last letters, of which there are so many; at least one comes before
them. -/
def Divides (word : String) (count : Nat) (stem ending : String) : Prop :=
  ∃ front back, clusters word = front ++ back ∧ front ≠ [] ∧ back.length = count ∧
    stem = String.join front ∧ ending = String.join back

/-- A word with enough letters is divided before the last ones. -/
theorem divides_iff {word : String} {count : Nat} {stem ending : String} :
    Divides word count stem ending ↔ count < (clusters word).length ∧
      stem = String.join ((clusters word).take ((clusters word).length - count)) ∧
      ending = String.join ((clusters word).drop ((clusters word).length - count)) := by
  constructor
  · rintro ⟨front, back, hletters, hne, rfl, rfl, rfl⟩
    have hpos : 0 < front.length := List.length_pos_iff.2 hne
    rw [hletters, List.length_append, Nat.add_sub_cancel, List.take_left, List.drop_left]
    exact ⟨by omega, rfl, rfl⟩
  · rintro ⟨hlt, rfl, rfl⟩
    refine ⟨_, _, (List.take_append_drop _ _).symm, ?_, ?_, rfl, rfl⟩
    · rw [← List.length_pos_iff, List.length_take]
      omega
    · rw [List.length_drop]
      omega

/-- Whether a word ends in one of some endings is seen from its last letters. -/
theorem exists_divides_iff {word : String} {count : Nat} {endings : List String} :
    (count < (clusters word).length &&
        endings.contains (String.join ((clusters word).drop ((clusters word).length - count)))) =
      true ↔ ∃ stem ending, Divides word count stem ending ∧ ending ∈ endings := by
  rw [Bool.and_eq_true, decide_eq_true_eq, List.contains_iff_mem]
  constructor
  · rintro ⟨hlt, hmem⟩
    exact ⟨_, _, divides_iff.2 ⟨hlt, rfl, rfl⟩, hmem⟩
  · rintro ⟨stem, ending, hdivides, hmem⟩
    obtain ⟨hlt, -, rfl⟩ := divides_iff.1 hdivides
    exact ⟨hlt, hmem⟩

/-! ## What each step gives -/

/-- A number is written with digits alone, at least one of them. -/
def IsNumber (word : String) : Prop := word.toList ≠ [] ∧ ∀ c ∈ word.toList, '0' ≤ c ∧ c ≤ '9'

/-- A foreign word holds the mark of foreign words, if there is such a mark. -/
def IsForeign (unknown : UnknownWords κ) (word : String) : Prop :=
  unknown.foreignMarker ≠ "" ∧ unknown.foreignMarker.toList <:+: word.toList

/-- The first letter of a word; the empty text if there is none. -/
def firstLetter (word : String) : String := (clusters word).head?.getD ""

/-- A part of speech is favoured if it is an open class, or that of verbs in a word that begins as
they do. -/
def Favoured (unknown : UnknownWords κ) (word tag : String) : Prop :=
  tag ∈ unknown.openClassTags ∨ tag ∈ unknown.verbTags ∧ firstLetter word ∈ unknown.verbPrefixes

/-- The candidate that a step has from a rule. -/
structure Candidate.IsOf (source : TagSource) (rule : Rule κ) (candidate : Candidate κ) : Prop where
  /-- The part of speech is what the rule rewrites. -/
  tag : rule.label? = some candidate.tag
  /-- The cost is that of the rule. -/
  cost : candidate.cost = rule.cost
  /-- The step. -/
  source : candidate.source = source

/-- The candidate that an entry of the smoothing list gives. -/
structure Candidate.IsSmoothed [Cost κ] (unknown : UnknownWords κ) (word : String)
    (entry : TagCost κ) (candidate : Candidate κ) : Prop where
  /-- The part of speech is that of the entry. -/
  tag : candidate.tag = entry.tag
  /-- The cost of a favoured one is multiplied with the bias factor. -/
  favoured : Favoured unknown word entry.tag → candidate.cost = entry.cost * unknown.biasFactor
  /-- Any other one has the cost of the entry. -/
  other : ¬ Favoured unknown word entry.tag → candidate.cost = entry.cost
  /-- The step. -/
  source : candidate.source = .smoothing

namespace Grammar

/-- The rules of the stem of a word, and the step that finds them. Where the word ends in a suffix,
the stem is what comes before it, or that with the feminine ending; only where it ends in none, a
weak letter is removed. -/
inductive StemRules (g : Grammar κ) (unknown : UnknownWords κ) (word : String) :
    TagSource → List (Rule κ) → Prop
  /-- The last two letters are a suffix. -/
  | suffix {stem ending : String} {rules : List (Rule κ)} :
    Divides word 2 stem ending → ending ∈ unknown.suffixes →
    (g.lexicon.find? stem = some rules ∨ g.lexicon.find? stem = none ∧
      g.lexicon.find? (stem ++ unknown.feminineMarker) = some rules) →
    StemRules g unknown word .suffix rules
  /-- The last two letters are no suffix, and the last one is weak. -/
  | weakLetter {stem letter : String} {rules : List (Rule κ)} :
    (∀ stem ending, Divides word 2 stem ending → ending ∉ unknown.suffixes) →
    Divides word 1 stem letter → letter ∈ unknown.weakLetters →
    g.lexicon.find? stem = some rules → StemRules g unknown word .weakLetter rules

/-- The candidates that the steps give for a word that the lexicon does not hold, each step where
those before it give none. -/
inductive GivesUnknown [Cost κ] (g : Grammar κ) (unknown : UnknownWords κ) (word : String) :
    List (Candidate κ) → Prop
  /-- A stem of the word is known. -/
  | stem {source : TagSource} {rules : List (Rule κ)} {candidates : List (Candidate κ)} :
    StemRules g unknown word source rules →
    List.Forall₂ (Candidate.IsOf source) rules candidates → GivesUnknown g unknown word candidates
  /-- The word is a number. -/
  | cardinal : (∀ source rules, ¬ StemRules g unknown word source rules) → IsNumber word →
    GivesUnknown g unknown word [⟨unknown.cardinalTag, 0, .cardinal⟩]
  /-- The word is a foreign one. -/
  | foreign : (∀ source rules, ¬ StemRules g unknown word source rules) → ¬ IsNumber word →
    IsForeign unknown word → GivesUnknown g unknown word [⟨unknown.properNounTag, 0, .foreign⟩]
  /-- The word is unknown in every respect. -/
  | smoothing {candidates : List (Candidate κ)} :
    (∀ source rules, ¬ StemRules g unknown word source rules) → ¬ IsNumber word →
    ¬ IsForeign unknown word →
    List.Forall₂ (Candidate.IsSmoothed unknown word) g.smoothing candidates →
    GivesUnknown g unknown word candidates

/-- The candidates of a word: those of its rules if the lexicon holds it, and otherwise those that
the steps for unknown words give. -/
inductive Gives [Cost κ] (g : Grammar κ) (unknown : UnknownWords κ) (word : String) :
    List (Candidate κ) → Prop
  /-- The word is known. -/
  | lexicon {rules : List (Rule κ)} {candidates : List (Candidate κ)} :
    g.lexicon.find? word = some rules →
    List.Forall₂ (Candidate.IsOf .lexicon) rules candidates → Gives g unknown word candidates
  /-- The word is not known. -/
  | unknown {candidates : List (Candidate κ)} : g.lexicon.find? word = none →
    GivesUnknown g unknown word candidates → Gives g unknown word candidates

end Grammar

/-! ## What tagging comes to -/

/-- A text is a number if the library takes it for one. -/
theorem isCardinal_iff {word : String} : isCardinal word = true ↔ IsNumber word := by
  have hdigit : ∀ c : Char, c.isDigit = true ↔ '0' ≤ c ∧ c ≤ '9' := by
    intro c
    rw [Char.isDigit, Bool.and_eq_true, decide_eq_true_eq, decide_eq_true_eq]
    exact Iff.rfl
  unfold isCardinal IsNumber
  rw [Bool.and_eq_true, List.all_eq_true]
  simp only [hdigit]
  simp

/-- Characters occur in others if these hold them after each other. -/
theorem occursIn_iff {part chars : List Char} : occursIn part chars = true ↔ part <:+: chars := by
  induction chars with
  | nil => simp [occursIn]
  | cons c rest ih =>
    rw [occursIn, Bool.or_eq_true, ih, List.isPrefixOf_iff_prefix, List.infix_cons_iff]

/-- A text is a foreign word if the library takes it for one. -/
theorem isForeign_iff {unknown : UnknownWords κ} {word : String} :
    (!unknown.foreignMarker.isEmpty && occursIn unknown.foreignMarker.toList word.toList) = true ↔
      IsForeign unknown word := by
  rw [Bool.and_eq_true, occursIn_iff, IsForeign]
  simp

/-- The candidate of a rule is the one that it gives. -/
theorem Candidate.ofRule_eq_ok_iff {source : TagSource} {rule : Rule κ} {candidate : Candidate κ} :
    Candidate.ofRule source rule = .ok candidate ↔ Candidate.IsOf source rule candidate := by
  rw [Candidate.ofRule, map_eq_ok_iff]
  constructor
  · rintro ⟨tag, htag, rfl⟩
    exact ⟨Rule.label_eq_ok_iff.1 htag, rfl, rfl⟩
  · rintro ⟨hlabel, hcost, hsource⟩
    refine ⟨candidate.tag, Rule.label_eq_ok_iff.2 hlabel, ?_⟩
    rw [← hcost, ← hsource]

/-- The candidates of rules are those that they give one by one. -/
theorem Candidate.mapM_ofRule_eq_ok_iff {source : TagSource} {rules : List (Rule κ)}
    {candidates : List (Candidate κ)} :
    rules.mapM (Candidate.ofRule source) = .ok candidates ↔
      List.Forall₂ (Candidate.IsOf source) rules candidates := by
  simp only [mapM_eq_ok_iff, Candidate.ofRule_eq_ok_iff]

namespace Grammar

variable {g : Grammar κ} {unknown : UnknownWords κ} {word : String}

/-- Of two words the first that the lexicon holds decides. -/
theorem firstKnown?_pair {first second : String} {rules : List (Rule κ)} :
    g.firstKnown? [first, second] = some rules ↔
      g.lexicon.find? first = some rules ∨
        g.lexicon.find? first = none ∧ g.lexicon.find? second = some rules := by
  unfold firstKnown?
  rw [List.findSome?_cons]
  cases g.lexicon.find? first with
  | some found => simp
  | none => cases hsecond : g.lexicon.find? second <;> simp [hsecond]

/-- The rules that the morphological steps find are those of a stem. -/
theorem morphology?_eq_some_iff {source : TagSource} {rules : List (Rule κ)} :
    g.morphology? unknown word = some (source, rules) ↔ StemRules g unknown word source rules := by
  unfold morphology?
  dsimp only
  by_cases hsuffix : ∃ stem ending, Divides word 2 stem ending ∧ ending ∈ unknown.suffixes
  · rw [if_pos (exists_divides_iff.2 hsuffix), Option.map_eq_some_iff]
    constructor
    · rintro ⟨found, hfound, heq⟩
      obtain ⟨rfl, rfl⟩ := Prod.mk.inj heq
      obtain ⟨stem, ending, hdivides, hmem⟩ := hsuffix
      obtain ⟨-, rfl, -⟩ := divides_iff.1 hdivides
      exact .suffix hdivides hmem (firstKnown?_pair.1 hfound)
    · rintro (⟨hdivides, -, hknown⟩ | ⟨hnone, -, -, -⟩)
      · obtain ⟨-, rfl, -⟩ := divides_iff.1 hdivides
        exact ⟨rules, firstKnown?_pair.2 hknown, rfl⟩
      · obtain ⟨stem, ending, hdivides, hmem⟩ := hsuffix
        exact absurd hmem (hnone stem ending hdivides)
  · rw [if_neg (mt exists_divides_iff.1 hsuffix)]
    by_cases hweak : ∃ stem letter, Divides word 1 stem letter ∧ letter ∈ unknown.weakLetters
    · rw [if_pos (exists_divides_iff.2 hweak), Option.map_eq_some_iff]
      constructor
      · rintro ⟨found, hfound, heq⟩
        obtain ⟨rfl, rfl⟩ := Prod.mk.inj heq
        obtain ⟨stem, letter, hdivides, hmem⟩ := hweak
        obtain ⟨-, rfl, -⟩ := divides_iff.1 hdivides
        exact .weakLetter (fun stem ending hd hm => hsuffix ⟨stem, ending, hd, hm⟩) hdivides hmem
          hfound
      · rintro (⟨hdivides, hmem, -⟩ | ⟨-, hdivides, -, hknown⟩)
        · exact absurd ⟨_, _, hdivides, hmem⟩ hsuffix
        · obtain ⟨-, rfl, -⟩ := divides_iff.1 hdivides
          exact ⟨rules, hknown, rfl⟩
    · rw [if_neg (mt exists_divides_iff.1 hweak)]
      constructor
      · exact nofun
      · rintro (⟨hdivides, hmem, -⟩ | ⟨-, hdivides, hmem, -⟩)
        · exact absurd ⟨_, _, hdivides, hmem⟩ hsuffix
        · exact absurd ⟨_, _, hdivides, hmem⟩ hweak

/-- A part of speech is favoured if the library favours it. -/
theorem favours_iff {tag : String} :
    favours unknown word tag = true ↔ Favoured unknown word tag := by
  unfold favours Favoured firstLetter
  simp [and_comm]

section Costs

variable [Cost κ] {candidates : List (Candidate κ)}

/-- The candidates from the smoothing list are those that its entries give one by one. -/
theorem smoothed_eq_iff :
    g.smoothed unknown word = candidates ↔
      List.Forall₂ (Candidate.IsSmoothed unknown word) g.smoothing candidates := by
  have hentry : ∀ {entry : TagCost κ} {candidate : Candidate κ},
      (⟨entry.tag, if favours unknown word entry.tag then entry.cost * unknown.biasFactor
        else entry.cost, .smoothing⟩ : Candidate κ) = candidate ↔
          candidate.IsSmoothed unknown word entry := by
    intro entry candidate
    by_cases hf : Favoured unknown word entry.tag
    · rw [if_pos (favours_iff.2 hf)]
      constructor
      · rintro rfl
        exact ⟨rfl, fun _ => rfl, fun h => absurd hf h, rfl⟩
      · rintro ⟨htag, hcost, -, hsource⟩
        rw [← htag, ← hcost hf, ← hsource]
    · rw [if_neg (mt favours_iff.1 hf)]
      constructor
      · rintro rfl
        exact ⟨rfl, fun h => absurd h hf, fun _ => rfl, rfl⟩
      · rintro ⟨htag, -, hcost, hsource⟩
        rw [← htag, ← hcost hf, ← hsource]
  rw [smoothed, ← List.forall₂_eq_eq_eq, List.forall₂_map_left_iff]
  simp only [hentry]

/-- Tagging a word that is not in the lexicon comes to what the steps for unknown words give. -/
theorem tagUnknown_eq_ok_iff :
    g.tagUnknown unknown word = .ok candidates ↔ GivesUnknown g unknown word candidates := by
  unfold tagUnknown
  cases hstem : g.morphology? unknown word with
  | some found =>
    obtain ⟨source, rules⟩ := found
    have hfound := morphology?_eq_some_iff.1 hstem
    dsimp only
    rw [Candidate.mapM_ofRule_eq_ok_iff]
    constructor
    · exact .stem hfound
    · rintro (⟨hother, hall⟩ | ⟨hnone, -⟩ | ⟨hnone, -, -⟩ | ⟨hnone, -, -, -⟩)
      · have hsame := Option.some.inj (hstem.symm.trans (morphology?_eq_some_iff.2 hother))
        obtain ⟨rfl, rfl⟩ := Prod.mk.inj hsame
        exact hall
      all_goals exact absurd hfound (hnone source rules)
  | none =>
    have hnone : ∀ source rules, ¬ StemRules g unknown word source rules := fun source rules h =>
      absurd (hstem.symm.trans (morphology?_eq_some_iff.2 h)) nofun
    dsimp only
    by_cases hnumber : IsNumber word
    · rw [if_pos (isCardinal_iff.2 hnumber)]
      constructor
      · intro h
        obtain rfl := Except.ok.inj h
        exact .cardinal hnone hnumber
      · rintro (⟨hfound, -⟩ | - | ⟨-, hother, -⟩ | ⟨-, hother, -, -⟩)
        · exact absurd hfound (hnone _ _)
        · rfl
        all_goals exact absurd hnumber hother
    · rw [if_neg (mt isCardinal_iff.1 hnumber)]
      by_cases hforeign : IsForeign unknown word
      · rw [if_pos (isForeign_iff.2 hforeign)]
        constructor
        · intro h
          obtain rfl := Except.ok.inj h
          exact .foreign hnone hnumber hforeign
        · rintro (⟨hfound, -⟩ | ⟨-, hother⟩ | - | ⟨-, -, hother, -⟩)
          · exact absurd hfound (hnone _ _)
          · exact absurd hother hnumber
          · rfl
          · exact absurd hforeign hother
      · rw [if_neg (mt isForeign_iff.1 hforeign), Except.ok.injEq, smoothed_eq_iff]
        constructor
        · exact .smoothing hnone hnumber hforeign
        · rintro (⟨hfound, -⟩ | ⟨-, hother⟩ | ⟨-, -, hother⟩ | ⟨-, -, -, hall⟩)
          · exact absurd hfound (hnone _ _)
          · exact absurd hother hnumber
          · exact absurd hother hforeign
          · exact hall

/-- Tagging comes to what the steps give. -/
theorem tag_eq_ok_iff : g.tag unknown word = .ok candidates ↔ Gives g unknown word candidates := by
  unfold tag
  cases hknown : g.lexicon.find? word with
  | some rules =>
    dsimp only
    rw [Candidate.mapM_ofRule_eq_ok_iff]
    constructor
    · exact .lexicon hknown
    · rintro (⟨hfound, hall⟩ | ⟨hnone, -⟩)
      · obtain rfl := Option.some.inj (hknown.symm.trans hfound)
        exact hall
      · exact absurd (hknown.symm.trans hnone) nofun
  | none =>
    dsimp only
    rw [tagUnknown_eq_ok_iff]
    constructor
    · exact .unknown hknown
    · rintro (⟨hfound, -⟩ | ⟨-, hgives⟩)
      · exact absurd (hknown.symm.trans hfound) nofun
      · exact hgives

/-- All candidates that the steps give come from one of them. -/
theorem Gives.exists_source (h : Gives g unknown word candidates) :
    ∃ source, ∀ candidate ∈ candidates, candidate.source = source := by
  have hrules : ∀ {source : TagSource} {rules : List (Rule κ)},
      List.Forall₂ (Candidate.IsOf source) rules candidates →
      ∃ source, ∀ candidate ∈ candidates, candidate.source = source := by
    intro source rules hall
    refine ⟨source, fun candidate hc => ?_⟩
    obtain ⟨rule, -, hrule⟩ := exists_of_mem_forall₂ hall hc
    exact hrule.source
  rcases h with ⟨-, hall⟩ | ⟨-, ⟨-, hall⟩ | - | - | ⟨-, -, -, hall⟩⟩
  · exact hrules hall
  · exact hrules hall
  · exact ⟨.cardinal, fun candidate hc => by rw [List.mem_singleton.1 hc]⟩
  · exact ⟨.foreign, fun candidate hc => by rw [List.mem_singleton.1 hc]⟩
  · refine ⟨.smoothing, fun candidate hc => ?_⟩
    obtain ⟨entry, -, hentry⟩ := exists_of_mem_forall₂ hall hc
    exact hentry.source

/-- If every known word has a rule and there is a part of speech of unknown words, the steps give a
candidate. -/
theorem Gives.ne_nil (h : Gives g unknown word candidates)
    (hknown : ∀ {known rules}, g.lexicon.find? known = some rules → rules ≠ [])
    (hsmoothing : g.smoothing ≠ []) : candidates ≠ [] := by
  have hlength : ∀ {α : Type} {r : α → Candidate κ → Prop} {items : List α},
      List.Forall₂ r items candidates → items ≠ [] → candidates ≠ [] := by
    intro α r items hall hne
    rw [← List.length_pos_iff] at hne ⊢
    exact hall.length_eq ▸ hne
  rcases h with ⟨hfound, hall⟩ | ⟨-, ⟨hstem, hall⟩ | - | - | ⟨-, -, -, hall⟩⟩
  · exact hlength hall (hknown hfound)
  · obtain ⟨known, hfound⟩ := exists_find?_of_morphology? (morphology?_eq_some_iff.2 hstem)
    exact hlength hall (hknown hfound)
  · exact List.cons_ne_nil _ _
  · exact List.cons_ne_nil _ _
  · exact hlength hall hsmoothing

end Costs

end Grammar

/-! ## Grammars that come about by operations -/

/-- The rules that an operation is given. -/
def Operation.given : Operation κ → List (Rule κ)
  | count rule | insertSyntactic rule => [rule]
  | _ => []

namespace Grammar

/-- A grammar whose rules have one symbol on the left, the counted ones, the syntactic ones and
those of words, and in which every known word has a rule. -/
structure Serviceable (g : Grammar κ) : Prop where
  /-- The counted rules. -/
  counted : ∀ tally ∈ g.counts.values, tally.rule.lhs.symbols.length = 1
  /-- The syntactic rules. -/
  syntactic : ∀ rule ∈ g.syntactic, rule.lhs.symbols.length = 1
  /-- The rules of each word. -/
  lexical : ∀ rules ∈ g.lexicon.values, rules ≠ [] ∧ ∀ rule ∈ rules, rule.lhs.symbols.length = 1

variable {g : Grammar κ}

/-- In a serviceable grammar the rules have one symbol on the left. -/
theorem Serviceable.oneLeft (h : g.Serviceable) : g.OneLeft :=
  oneLeft_of_values h.syntactic fun rules hr => (h.lexical rules hr).2

/-- The empty grammar is serviceable. -/
theorem serviceable_empty : (empty : Grammar κ).Serviceable where
  counted _ h := absurd h List.not_mem_nil
  syntactic _ h := absurd h List.not_mem_nil
  lexical _ h := absurd h List.not_mem_nil

/-- A grammar that is read from texts is serviceable. -/
theorem serviceable_of_ofText {rules lexicon : String} {g : Grammar Float}
    (h : ofText rules lexicon = .ok g) : g.Serviceable := by
  have hloaded := loaded_of_ofText h
  refine ⟨fun tally ht => ?_, fun rule hr => (hloaded.syntactic rule hr).single, fun rules hr => ?_⟩
  · rw [hloaded.counts] at ht
    exact absurd ht List.not_mem_nil
  · obtain ⟨word, hword⟩ := OrderedMap.exists_find?_of_mem_values hloaded.distinct hr
    have hfits := hloaded.words hword
    refine ⟨hfits.ne_nil, fun rule hrule => ?_⟩
    obtain ⟨tag, -, hof⟩ := hfits.ofWord rule hrule
    have hlhs : rule.lhs = Side.single tag := congrArg Rule.lhs hof
    rw [hlhs]
    rfl

/-- Appending rules with one symbol on the left keeps every known word serviceable. -/
theorem forall_values_append {lexicon : OrderedMap String (List (Rule κ))}
    (h : ∀ rules ∈ lexicon.values, rules ≠ [] ∧ ∀ rule ∈ rules, rule.lhs.symbols.length = 1)
    {rule : Rule κ} (hrule : rule.lhs.symbols.length = 1) (word : String) :
    ∀ rules ∈ (lexicon.append word [rule]).values,
      rules ≠ [] ∧ ∀ rule ∈ rules, rule.lhs.symbols.length = 1 := by
  refine OrderedMap.forall_values_alter h ?_ (fun rules hrules => ?_) word
  · exact ⟨List.cons_ne_nil _ _, List.forall_mem_singleton.2 hrule⟩
  · exact ⟨List.append_ne_nil_of_right_ne_nil _ (List.cons_ne_nil _ _),
      List.forall_mem_append.2 ⟨hrules.2, List.forall_mem_singleton.2 hrule⟩⟩

/-- The lexicon of rules with one symbol on the left has a rule for each known word. -/
theorem forall_values_lexiconOf {rules : List (Rule κ)}
    (h : ∀ rule ∈ rules, rule.lhs.symbols.length = 1) :
    ∀ found ∈ (lexiconOf rules).values,
      found ≠ [] ∧ ∀ rule ∈ found, rule.lhs.symbols.length = 1 := by
  induction rules using List.reverseRecOn with
  | nil => exact fun found hfound => absurd hfound List.not_mem_nil
  | append_singleton rules rule ih =>
    rw [List.forall_mem_append, List.forall_mem_singleton] at h
    have happend : lexiconOf (rules ++ [rule]) = (lexiconOf rules).append rule.rhs.text [rule] := by
      rw [lexiconOf, List.foldl_append]
      rfl
    rw [happend]
    exact forall_values_append (ih h.1) h.2 rule.rhs.text

section Costs

variable [Cost κ]

/-- The rules that are priced are the counted ones. -/
theorem Serviceable.priced (h : g.Serviceable) :
    ∀ rule ∈ g.priced, rule.lhs.symbols.length = 1 := by
  intro rule hr
  obtain ⟨⟨key, tally⟩, hentry, rfl⟩ := List.mem_map.1 hr
  exact h.counted tally (List.mem_map_of_mem hentry)

/-- A grammar stays serviceable when it is estimated. -/
theorem Serviceable.estimate (h : g.Serviceable) : g.estimate.Serviceable where
  counted := h.counted
  syntactic rule hr := h.priced rule (List.mem_filter.1 hr).1
  lexical := forall_values_lexiconOf fun rule hr => h.priced rule (List.mem_filter.1 hr).1

/-- A grammar stays serviceable when an operation is given rules with one symbol on the left. -/
theorem Serviceable.perform (h : g.Serviceable) {operation : Operation κ}
    (hgiven : ∀ rule ∈ operation.given, rule.lhs.symbols.length = 1) :
    (g.perform operation).Serviceable := by
  cases operation with
  | count rule =>
    have hrule := hgiven rule List.mem_cons_self
    exact ⟨OrderedMap.forall_values_alter h.counted hrule (fun _ htally => htally) rule.key,
      h.syntactic, h.lexical⟩
  | estimate => exact h.estimate
  | insertSyntactic rule =>
    have hrule := hgiven rule List.mem_cons_self
    exact ⟨h.counted, List.forall_mem_append.2 ⟨h.syntactic, List.forall_mem_singleton.2 hrule⟩,
      h.lexical⟩
  | insertLexical word entry =>
    exact ⟨h.counted, h.syntactic, forall_values_append h.lexical rfl word⟩
  | insertSmoothing entry => exact ⟨h.counted, h.syntactic, h.lexical⟩
  | rebuildSmoothing => exact ⟨h.counted, h.syntactic, h.lexical⟩

/-- A grammar stays serviceable in the course of a history. -/
theorem Serviceable.after (h : g.Serviceable) {history : List (Operation κ)}
    (hgiven : ∀ rule ∈ history.flatMap Operation.given, rule.lhs.symbols.length = 1) :
    (g.after history).Serviceable := by
  induction history generalizing g with
  | nil => exact h
  | cons operation rest ih =>
    rw [List.flatMap_cons, List.forall_mem_append] at hgiven
    exact ih (h.perform hgiven.1) hgiven.2

/-- In a serviceable grammar that has a part of speech of unknown words, every word has candidates.
They are what the steps give, and they come from one step. -/
theorem Serviceable.exists_tag (h : g.Serviceable) (hsmoothing : g.smoothing ≠ [])
    (unknown : UnknownWords κ) (word : String) :
    ∃ candidates, g.tag unknown word = .ok candidates ∧ candidates ≠ [] ∧
      (∃ source, ∀ candidate ∈ candidates, candidate.source = source) ∧
      ∀ other, Gives g unknown word other ↔ other = candidates := by
  obtain ⟨candidates, htag⟩ := h.oneLeft.exists_tag_eq_ok unknown word
  have hgives := tag_eq_ok_iff.1 htag
  refine ⟨candidates, htag, hgives.ne_nil (fun hknown => ?_) hsmoothing, hgives.exists_source,
    fun other => ?_⟩
  · exact (h.lexical _ (OrderedMap.mem_values_of_find? hknown)).1
  · rw [← tag_eq_ok_iff, htag, Except.ok.injEq, eq_comm]

end Costs

/-- Whatever has been done to a grammar with rules that have one symbol on the left, if there is a
part of speech of unknown words then every word has candidates. They are what the first step gives
that gives any, and they come from that step alone. -/
theorem tag_follows_steps {start : Grammar Float}
    (hstart : start = empty ∨ ∃ rules lexicon, ofText rules lexicon = .ok start)
    {history : List (Operation Float)}
    (hgiven : ∀ rule ∈ history.flatMap Operation.given, rule.lhs.symbols.length = 1)
    (hsmoothing : (start.after history).smoothing ≠ []) (unknown : UnknownWords Float)
    (word : String) :
    ∃ candidates, (start.after history).tag unknown word = .ok candidates ∧ candidates ≠ [] ∧
      (∃ source, ∀ candidate ∈ candidates, candidate.source = source) ∧
      ∀ other, Gives (start.after history) unknown word other ↔ other = candidates := by
  have hserviceable : start.Serviceable := by
    rcases hstart with rfl | ⟨rules, lexicon, hread⟩
    · exact serviceable_empty
    · exact serviceable_of_ofText hread
  exact (hserviceable.after hgiven).exists_tag hsmoothing unknown word

/-- A history after which a stem is known and there are three parts of speech of unknown words. -/
def stemHistory : List (Operation Float) :=
  [.count (.plain ⟨["NP"]⟩ ⟨["NN"]⟩ 0), .insertLexical "GDRT" ⟨"JJ", 1⟩, .insertSmoothing ⟨"NN", 1⟩,
    .insertSmoothing ⟨"VB", 2⟩, .insertSmoothing ⟨"IN", 3⟩]

/-- A word ends in a suffix and in a weak letter. What comes before the suffix is not known, and
what comes before the letter is not tried. -/
theorem tag_follows_steps_suffix :
    (∀ rule ∈ stemHistory.flatMap Operation.given, rule.lhs.symbols.length = 1) ∧
      (empty.after stemHistory).smoothing ≠ [] ∧
      (empty.after stemHistory).lexicon.contains "GDRT" = true ∧
      ∀ other, Gives (empty.after stemHistory) (.standard 0.5) "GDRTH" other ↔
        other = [⟨"NN", 0.5, .smoothing⟩, ⟨"VB", 2, .smoothing⟩, ⟨"IN", 3, .smoothing⟩] := by
  have hgiven : ∀ rule ∈ stemHistory.flatMap Operation.given, rule.lhs.symbols.length = 1 := by
    decide +kernel
  have hsmoothing : (empty.after stemHistory).smoothing ≠ [] := List.cons_ne_nil _ _
  obtain ⟨candidates, htag, -, -, hgives⟩ :=
    tag_follows_steps (.inl rfl) hgiven hsmoothing (.standard 0.5) "GDRTH"
  have hvalue : (empty.after stemHistory).tag (.standard 0.5) "GDRTH" =
      .ok [⟨"NN", 0.5, .smoothing⟩, ⟨"VB", 2, .smoothing⟩, ⟨"IN", 3, .smoothing⟩] := by
    decide +kernel
  obtain rfl := Except.ok.inj (htag.symm.trans hvalue)
  exact ⟨hgiven, hsmoothing, by decide +kernel, hgives⟩

end Grammar

end Constituency
