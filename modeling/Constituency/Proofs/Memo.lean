import Constituency.Proofs.Cost
import Constituency.Proofs.Training
import Mathlib.Data.Finset.Card
import Mathlib.Data.List.Dedup

/-!
# Earlier rules do not matter to a binarizer

A binarizer keeps one chain for every identity of a rule with more than two symbols on the right
(`Remembers`), and only its sides matter to a chain. So a binarizer gives a rule what a new one
gives it, with the mark of the rule at hand, and the chains that it keeps tell the distinct rules
apart (`memo_transparent`).
-/

namespace Constituency

open Text (IsWord)

variable {κ : Type} [Cost κ]

namespace Binarizer

variable {m : Markovization} {b : Binarizer κ} {seen : List (Rule κ)}

/-- The keys of the memo after a rule: its identity is one of them if it has been divided. -/
theorem mem_keys_binarize {rule : Rule κ} {key : RuleKey} :
    key ∈ (b.binarize rule).1.memo.keys ↔
      key ∈ b.memo.keys ∨ 2 < rule.rhs.size ∧ rule.key = key := by
  unfold Binarizer.binarize
  split
  · rename_i hsize
    exact ⟨Or.inl, fun h => h.resolve_right fun hlong => Nat.not_le_of_gt hlong.1 hsize⟩
  · rename_i hsize
    have hlong : 2 < rule.rhs.size := Nat.lt_of_not_le hsize
    split
    · -- A chain is found under the identity of the rule, so this is one of the keys already.
      rename_i chain hfound
      refine ⟨Or.inl, ?_⟩
      rintro (hkey | ⟨-, rfl⟩)
      · exact hkey
      · exact OrderedMap.mem_keys_of_find? hfound
    · rw [OrderedMap.mem_keys_insert]
      constructor
      · rintro (rfl | hkey)
        · exact Or.inr ⟨hlong, rfl⟩
        · exact Or.inl hkey
      · rintro (hkey | ⟨-, rfl⟩)
        · exact Or.inr hkey
        · exact Or.inl rfl

/-- Binarizing a rule leaves the keys of the memo distinct. -/
theorem nodup_keys_binarize (h : b.memo.keys.Nodup) (rule : Rule κ) :
    (b.binarize rule).1.memo.keys.Nodup := by
  unfold Binarizer.binarize
  split
  · exact h
  · split
    · exact h
    · exact OrderedMap.nodup_keys_alter h _ _

/-- A binarizer that has been given certain rules: it keeps the chains of those of them that have
more than two symbols on the right, and no others, each under the identity of its rule. -/
structure Remembers (b : Binarizer κ) (m : Markovization) (seen : List (Rule κ)) : Prop where
  /-- The chains are those of plain rules. -/
  keeps : b.Keeps m Rule.Plain
  /-- No identity is listed twice. -/
  nodup : b.memo.keys.Nodup
  /-- The identities are those of the rules that have been divided. -/
  mem_keys : ∀ {key : RuleKey},
    key ∈ b.memo.keys ↔ ∃ rule ∈ seen, 2 < rule.rhs.size ∧ rule.key = key

/-- A new binarizer has been given no rules. -/
theorem remembers_new (m : Markovization) : (new m : Binarizer κ).Remembers m [] := by
  refine ⟨keeps_new m _, List.nodup_nil, fun {key} => ⟨fun h => ?_, ?_⟩⟩
  · exact absurd h List.not_mem_nil
  · rintro ⟨rule, hrule, -⟩
    exact absurd hrule List.not_mem_nil

/-- One more rule has been given to a binarizer once it has been binarized. -/
theorem Remembers.binarize (h : b.Remembers m seen) {rule : Rule κ} (hrule : rule.Plain) :
    (b.binarize rule).1.Remembers m (seen ++ [rule]) := by
  refine ⟨h.keeps.binarize hrule, nodup_keys_binarize h.nodup rule, fun {key} => ?_⟩
  rw [mem_keys_binarize, h.mem_keys]
  constructor
  · rintro (⟨other, hother, hlong⟩ | hlong)
    · exact ⟨other, List.mem_append_left _ hother, hlong⟩
    · exact ⟨rule, List.mem_append_right _ (List.mem_singleton_self rule), hlong⟩
  · rintro ⟨other, hother, hlong⟩
    rcases List.mem_append.1 hother with hother | hother
    · exact Or.inl ⟨other, hother, hlong⟩
    · exact Or.inr (List.mem_singleton.1 hother ▸ hlong)

/-- Further rules have been given to a binarizer once they have been binarized. -/
theorem Remembers.binarizeAll (h : b.Remembers m seen) {rules : List (Rule κ)}
    (hrules : ∀ rule ∈ rules, rule.Plain) :
    (b.binarizeAll rules).1.Remembers m (seen ++ rules) := by
  induction rules generalizing b seen with
  | nil =>
    rw [List.append_nil]
    exact h
  | cons rule rest ih =>
    have hfirst := h.binarize (hrules rule List.mem_cons_self)
    have hrest := ih hfirst fun other ho => hrules other (List.mem_cons_of_mem rule ho)
    rw [List.append_assoc] at hrest
    exact hrest

/-- The number of chains is that of the distinct rules that have been divided. -/
theorem Remembers.size_memo (h : b.Remembers m seen) (hseen : ∀ rule ∈ seen, rule.Plain) :
    b.memo.size =
      ((seen.filter fun rule => 2 < rule.rhs.size).map
        fun rule => (rule.lhs, rule.rhs)).toFinset.card := by
  let sides : Finset (Side × Side) :=
    ((seen.filter fun rule => 2 < rule.rhs.size).map fun rule => (rule.lhs, rule.rhs)).toFinset
  let texts : Side × Side → RuleKey := fun sides => (sides.1.text, sides.2.text)
  have hsides : ∀ {pair : Side × Side},
      pair ∈ sides ↔ ∃ rule ∈ seen, 2 < rule.rhs.size ∧ (rule.lhs, rule.rhs) = pair := by
    intro pair
    simp only [sides, List.mem_toFinset, List.mem_map, List.mem_filter, decide_eq_true_eq,
      and_assoc]
  have himage : b.memo.keys.toFinset = sides.image texts := by
    ext key
    rw [List.mem_toFinset, h.mem_keys, Finset.mem_image]
    constructor
    · rintro ⟨rule, hrule, hlong, rfl⟩
      exact ⟨_, hsides.2 ⟨rule, hrule, hlong, rfl⟩, rfl⟩
    · rintro ⟨pair, hpair, rfl⟩
      obtain ⟨rule, hrule, hlong, rfl⟩ := hsides.1 hpair
      exact ⟨rule, hrule, hlong, rfl⟩
  -- The symbols are words, so the texts of two sides tell the sides.
  have hinj : Set.InjOn texts sides := by
    intro first hfirst second hsecond htexts
    obtain ⟨rule, hrule, -, rfl⟩ := hsides.1 (Finset.mem_coe.1 hfirst)
    obtain ⟨other, hother, -, rfl⟩ := hsides.1 (Finset.mem_coe.1 hsecond)
    obtain ⟨hlhs, hrhs⟩ := (hseen rule hrule).sides_eq (hseen other hother) htexts
    rw [hlhs, hrhs]
  calc b.memo.size = b.memo.keys.length := (List.length_map Prod.fst).symm
    _ = b.memo.keys.toFinset.card := (List.toFinset_card_of_nodup h.nodup).symm
    _ = sides.card := by rw [himage, Finset.card_image_of_injOn hinj]

/-- What a binarizer has been given before does not matter to what it gives, as long as symbols are
words: it divides a rule as a new binarizer does, and it keeps one chain for every distinct rule
that it has divided. A second training run comes to the grammar of a first one. -/
theorem memo_transparent (m : Markovization) :
    (∀ history : List (Rule κ), (∀ rule ∈ history, rule.Plain) →
      (∀ rule : Rule κ, rule.Plain →
        ((((new m).binarizeAll history).1).binarize rule).2 = ((new m).binarize rule).2) ∧
      ((new m).binarizeAll history).1.memo.size =
        ((history.filter fun rule => 2 < rule.rhs.size).map
          fun rule => (rule.lhs, rule.rhs)).toFinset.card) ∧
    ∀ first second : List Tree, (∀ t ∈ first, t.AllLabels IsWord) →
      (∀ t ∈ second, t.AllLabels IsWord) →
      ((Constituency.train m first : Training.Result κ).binarizer.train second).grammar =
        (Constituency.train m second : Training.Result κ).grammar := by
  constructor
  · intro history hhistory
    have hremembers := (remembers_new m).binarizeAll hhistory
    constructor
    · intro rule hrule
      rw [hremembers.keeps.binarize_eq_pieces hrule, binarize_new]
    · exact hremembers.size_memo hhistory
  · intro first second hfirst hsecond
    have hkeeps : (Constituency.train m first : Training.Result κ).binarizer.Keeps m Rule.Plain :=
      ((keeps_new m _).train hfirst).1
    rw [(hkeeps.train hsecond).2, grammar_train m hsecond]

/-- Rules of which two are the same but for their costs and their marks of the root. -/
def dogRules : List (Rule WholeCost) :=
  [⟨⟨["NP"]⟩, ⟨["DT", "JJ", "NN"]⟩, ⟨5⟩, false, true⟩, .plain ⟨["NP"]⟩ ⟨["DT", "NN"]⟩ ⟨0⟩,
    .plain ⟨["NP"]⟩ ⟨["DT", "JJ", "NN"]⟩ ⟨2⟩, .plain ⟨["VP"]⟩ ⟨["DT", "JJ", "NN"]⟩ ⟨0⟩]

/-- A tree whose rule has to be divided. -/
def bigDog : Tree :=
  .node "NP" [.node "DT" [.leaf "the"], .node "JJ" [.leaf "big"], .node "NN" [.leaf "dog"]]

/-- After these rules there are two chains, and a rule whose chain was kept without the mark of the
root is divided with it. The rule of a tree is met below a root after it has been met at one. -/
theorem memo_transparent_dogRules :
    (∀ rule ∈ dogRules, rule.Plain) ∧
      ((new (.order 1)).binarizeAll dogRules).1.memo.size = 2 ∧
      (((new (.order 1)).binarizeAll dogRules).1.binarize
          ⟨⟨["VP"]⟩, ⟨["DT", "JJ", "NN"]⟩, ⟨0⟩, false, true⟩).2 =
        [⟨⟨["VP"]⟩, ⟨["DT", "[DT]@VP"]⟩, ⟨0⟩, false, true⟩,
          .plain ⟨["[DT]@VP"]⟩ ⟨["JJ", "NN"]⟩ ⟨0⟩] ∧
      (∀ t ∈ [bigDog], t.AllLabels IsWord) ∧ (∀ t ∈ [Tree.node "S" [bigDog]], t.AllLabels IsWord) ∧
      ((Constituency.train (.order 1) [bigDog] : Training.Result WholeCost).binarizer.train
          [.node "S" [bigDog]]).grammar =
        (Constituency.train (.order 1) [.node "S" [bigDog]] :
          Training.Result WholeCost).grammar := by
  have hplain : ∀ rule ∈ dogRules, rule.Plain := by decide +kernel
  have hrule : (⟨⟨["VP"]⟩, ⟨["DT", "JJ", "NN"]⟩, ⟨0⟩, false, true⟩ : Rule WholeCost).Plain := by
    decide +kernel
  have hfirst : ∀ t ∈ [bigDog], t.AllLabels IsWord := by decide +kernel
  have hsecond : ∀ t ∈ [Tree.node "S" [bigDog]], t.AllLabels IsWord := by decide +kernel
  obtain ⟨hrules, hruns⟩ := memo_transparent (κ := WholeCost) (.order 1)
  obtain ⟨hsame, hsize⟩ := hrules dogRules hplain
  refine ⟨hplain, ?_, ?_, hfirst, hsecond, hruns [bigDog] [.node "S" [bigDog]] hfirst hsecond⟩
  · rw [hsize]
    decide +kernel
  · rw [hsame _ hrule]
    decide +kernel

end Binarizer

end Constituency
