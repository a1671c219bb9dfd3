import Constituency.Proofs.Grammar.Partition

/-!
# Other names for symbols

A grammar does not depend on the names of its symbols: if symbols are renamed in the rules that are
counted, different ones differently, the estimated grammar is the same but for these names
(`estimate_rename`). Rules are told apart by texts, so this takes rules whose symbols are words,
before and after; and since words are no names of symbols, it takes a renaming that changes no rule
with one symbol on the right (`Rule.Renamable`).

Counting a rule changes one entry of the counts, and renaming commutes with this change
(`OrderedMap.map_alterEntries`), so the counts agree entry by entry (`entries_rename`). Costs are
made of the counts and the totals, which renaming leaves as they are (`totalOf_rename`).
-/

namespace Constituency

variable {κ : Type}

/-- A change of one key commutes with a conversion that keeps the key apart from the others. -/
theorem OrderedMap.map_alterEntries {α β γ δ : Type} [BEq α] [BEq γ] {convert : α × β → γ × δ}
    {key : α} {key' : γ} {change : Option β → β} {change' : Option δ → δ} {entries : List (α × β)}
    (hkey : ∀ entry ∈ entries, ((convert entry).1 == key') = (entry.1 == key))
    (hnone : convert (key, change none) = (key', change' none))
    (hsome : ∀ entry ∈ entries, (entry.1 == key) = true →
      convert (entry.1, change (some entry.2)) =
        ((convert entry).1, change' (some (convert entry).2))) :
    (alterEntries key change entries).map convert =
      alterEntries key' change' (entries.map convert) := by
  induction entries with
  | nil => rw [alterEntries, List.map_cons, List.map_nil, hnone]; rfl
  | cons entry rest ih =>
    have ih := ih (fun e he => hkey e (List.mem_cons_of_mem _ he))
      fun e he => hsome e (List.mem_cons_of_mem _ he)
    have hfirst := hkey entry List.mem_cons_self
    rw [alterEntries, List.map_cons, alterEntries, hfirst]
    cases hfound : entry.1 == key with
    | true =>
      rw [if_pos rfl, if_pos rfl, List.map_cons, hsome entry List.mem_cons_self hfound]
    | false =>
      rw [if_neg Bool.false_ne_true, if_neg Bool.false_ne_true, List.map_cons, ih]

/-- A side with other names for its symbols. -/
def Side.rename (f : String → String) (side : Side) : Side := ⟨side.symbols.map f⟩

namespace Rule

variable {f : String → String}

/-- A rule with other names for its symbols. What a lexical rule has on the right is a word and no
symbol. -/
def rename (f : String → String) (rule : Rule κ) : Rule κ :=
  { rule with
    lhs := rule.lhs.rename f
    rhs := if rule.lexical then rule.rhs else rule.rhs.rename f }

/-- Renaming keeps the number of symbols on the right. -/
theorem size_rename (f : String → String) (rule : Rule κ) :
    (rule.rename f).rhs.size = rule.rhs.size := by
  rw [rename, Side.size]
  split
  · rfl
  · exact List.length_map f

/-- The marks of a rule and those of the renamed one may be changed alike, unless the rule becomes a
lexical one; and then too if renaming does not change it. -/
theorem rename_marks {rule : Rule κ} {lexical : Bool}
    (h : rule.lexical = lexical ∨ lexical = true ∧ rule.rename f = rule) (top : Bool) :
    rename f { rule with lexical, top } = { rule.rename f with lexical, top } := by
  rcases h with rfl | ⟨rfl, hfixed⟩
  · rfl
  · have hlhs : rule.lhs.rename f = rule.lhs := congrArg Rule.lhs hfixed
    rw [hfixed, rename, hlhs]
    rfl

/-- Rules in which symbols can be renamed: different symbols get different names, symbols are words
under both of their names, and a rule with one symbol on the right stays as it is. -/
structure Renamable (f : String → String) (rules : List (Rule κ)) : Prop where
  /-- Different symbols get different names. -/
  injective : Function.Injective f
  /-- The rules are like those of the nodes of trees. -/
  proper : ∀ rule ∈ rules, rule.Proper
  /-- The new names are words. -/
  renamed : ∀ rule ∈ rules, (rule.rename f).Plain
  /-- A rule with one symbol on the right stays as it is. -/
  fixed : ∀ rule ∈ rules, rule.rhs.size = 1 → rule.rename f = rule

namespace Renamable

variable {rules : List (Rule κ)} {rule other : Rule κ}

/-- Some of the rules can be renamed. -/
theorem mono {fewer : List (Rule κ)} (h : Renamable f rules)
    (hsub : ∀ rule ∈ fewer, rule ∈ rules) : Renamable f fewer :=
  ⟨h.injective, fun rule hr => h.proper rule (hsub rule hr),
    fun rule hr => h.renamed rule (hsub rule hr), fun rule hr => h.fixed rule (hsub rule hr)⟩

/-- A rule that is the same as a lexical one stays as it is. -/
theorem rename_eq_of_lexical (h : Renamable f rules) (hr : rule ∈ rules) (ho : other ∈ rules)
    (hkey : rule.key = other.key) (hlexical : other.lexical = true) : rule.rename f = rule := by
  obtain ⟨-, hrhs⟩ := (h.proper rule hr).sides_eq (h.proper other ho).toPlain hkey
  refine h.fixed rule hr ?_
  rw [hrhs]
  exact (h.proper other ho).lexical hlexical

/-- Renaming keeps rules apart, and no others. -/
theorem key_rename_iff (h : Renamable f rules) (hr : rule ∈ rules) (ho : other ∈ rules) :
    (rule.rename f).key = (other.rename f).key ↔ rule.key = other.key := by
  have hmap : Function.Injective (Side.rename f) := fun first second hs => by
    obtain ⟨symbols⟩ := first
    obtain ⟨symbols'⟩ := second
    exact congrArg Side.mk (List.map_injective_iff.2 h.injective (congrArg Side.symbols hs))
  -- A rule that has several symbols on the right is no lexical one.
  have hsyntactic : ∀ {rule : Rule κ}, rule ∈ rules → rule.rhs.size ≠ 1 →
      (rule.rename f).rhs = rule.rhs.rename f := by
    intro rule hr hsize
    have hlexical : rule.lexical = false :=
      Bool.eq_false_iff.2 fun hl => hsize ((h.proper rule hr).lexical hl)
    rw [rename, hlexical, if_neg Bool.false_ne_true]
  constructor
  · intro hkey
    obtain ⟨hlhs, hrhs⟩ := (h.renamed rule hr).sides_eq (h.renamed other ho) hkey
    have hsize : rule.rhs.size = other.rhs.size := by
      rw [← size_rename f rule, hrhs, size_rename]
    by_cases hone : rule.rhs.size = 1
    · rwa [h.fixed rule hr hone, h.fixed other ho (hsize ▸ hone)] at hkey
    · rw [hsyntactic hr hone, hsyntactic ho (hsize ▸ hone)] at hrhs
      exact key_eq_of_sides (hmap hlhs) (hmap hrhs)
  · intro hkey
    obtain ⟨hlhs, hrhs⟩ := (h.proper rule hr).sides_eq (h.proper other ho).toPlain hkey
    by_cases hone : rule.rhs.size = 1
    · rwa [h.fixed rule hr hone, h.fixed other ho (hrhs ▸ hone)]
    · refine key_eq_of_sides (congrArg (Side.rename f) hlhs) ?_
      rw [hsyntactic hr hone, hsyntactic ho (hrhs ▸ hone), hrhs]

/-- Renaming keeps left-hand sides apart, and no others. -/
theorem text_rename_iff (h : Renamable f rules) (hr : rule ∈ rules) (ho : other ∈ rules) :
    (rule.rename f).lhs.text = (other.rename f).lhs.text ↔ rule.lhs.text = other.lhs.text := by
  have hsingle : ∀ {rule : Rule κ}, rule ∈ rules → ∃ symbol, rule.lhs = Side.single symbol := by
    intro rule hr
    obtain ⟨symbol, hsymbol⟩ := List.length_eq_one_iff.1 (h.proper rule hr).single
    exact ⟨symbol, congrArg Side.mk hsymbol⟩
  have htext : ∀ {rule : Rule κ} {symbol : String}, rule.lhs = Side.single symbol →
      (rule.rename f).lhs.text = f symbol := by
    intro rule symbol hlhs
    rw [rename, hlhs]
    exact Side.text_single (f symbol)
  obtain ⟨symbol, hlhs⟩ := hsingle hr
  obtain ⟨symbol', hlhs'⟩ := hsingle ho
  rw [htext hlhs, htext hlhs', hlhs, hlhs', Side.text_single, Side.text_single]
  exact h.injective.eq_iff

end Renamable

end Rule

/-- A tally with other names for symbols. -/
def Tally.rename (f : String → String) (tally : Tally κ) : Tally κ :=
  { tally with rule := tally.rule.rename f }

/-- An occurrence is added to a tally before renaming or after, unless it is lexical; and then too
if renaming does not change the rule of the tally. -/
theorem Tally.rename_add {f : String → String} {tally : Tally κ} {rule : Rule κ}
    (h : rule.lexical = true → tally.rule.rename f = tally.rule) :
    (Tally.add rule (some tally)).rename f =
      Tally.add (rule.rename f) (some (tally.rename f)) := by
  have hmarks : tally.rule.lexical = (tally.rule.lexical || rule.lexical) ∨
      (tally.rule.lexical || rule.lexical) = true ∧ tally.rule.rename f = tally.rule := by
    cases hlexical : rule.lexical with
    | false => exact Or.inl (Bool.or_false _).symm
    | true => exact Or.inr ⟨Bool.or_true _, h hlexical⟩
  rw [Tally.add, Tally.rename, Rule.rename_marks hmarks]
  rfl

namespace Grammar

open Rule (Renamable)

variable {f : String → String} {rules : List (Rule κ)}

/-- A grammar is another one with other names for symbols. The words have the same parts of speech
in both, at the same costs. -/
structure RenamedBy (f : String → String) (g renamed : Grammar κ) : Prop where
  /-- The counted rules are the renamed ones, with the same counts and marks, in the same order. -/
  counts : renamed.counts.entries =
    g.counts.entries.map fun entry => ((entry.2.rename f).rule.key, entry.2.rename f)
  /-- The syntactic rules are the renamed ones, with the same marks and costs, in the same order. -/
  syntactic : renamed.syntactic = g.syntactic.map (Rule.rename f)
  /-- The lexicon is the same. -/
  lexicon : renamed.lexicon = g.lexicon
  /-- The smoothing list is the same. -/
  smoothing : renamed.smoothing = g.smoothing

/-! ## Counts -/

/-- The rule of a tally is as it first occurred but for its marks, and so is the renamed one. -/
theorem exists_rename_of_mem_counts (h : Renamable f rules) {entry : RuleKey × Tally κ}
    (hentry : entry ∈ ((empty : Grammar κ).countAll rules).counts.entries) :
    ∃ first ∈ rules, first.key = entry.1 ∧
      entry.2.rule =
        { first with lexical := entry.2.rule.lexical, top := entry.2.rule.top } ∧
      entry.2.rule.rename f =
        { first.rename f with lexical := entry.2.rule.lexical, top := entry.2.rule.top } := by
  obtain ⟨key, tally⟩ := entry
  rw [OrderedMap.mem_entries_iff (nodup_keys_countAll rules), find?_counts_countAll] at hentry
  obtain ⟨first, hhead, hrule⟩ := Tally.exists_first hentry
  have hoccurs : ∀ {rule : Rule κ}, rule ∈ rules.filter (·.key == key) →
      rule ∈ rules ∧ rule.key = key := fun hr =>
    ⟨(List.mem_filter.1 hr).1, eq_of_beq (List.mem_filter.1 hr).2⟩
  have hfirst : first ∈ rules.filter (·.key == key) := List.mem_of_head? hhead
  obtain ⟨hmem, hkey⟩ := hoccurs hfirst
  refine ⟨first, hmem, hkey, ?_, ?_⟩
  · rw [hrule]
  · -- If the rule was not lexical at first and was so later, renaming does not change it.
    have hmarks : first.lexical = (rules.filter (·.key == key)).any Rule.lexical ∨
        (rules.filter (·.key == key)).any Rule.lexical = true ∧ first.rename f = first := by
      cases hany : (rules.filter (·.key == key)).any Rule.lexical with
      | false => exact Or.inl (Bool.eq_false_iff.2 (List.any_eq_false.1 hany first hfirst))
      | true =>
        obtain ⟨other, ho, hlexical⟩ := List.any_eq_true.1 hany
        obtain ⟨ho, hkey'⟩ := hoccurs ho
        exact Or.inr ⟨rfl, h.rename_eq_of_lexical hmem ho (hkey.trans hkey'.symm) hlexical⟩
    rw [hrule]
    exact Rule.rename_marks hmarks _

/-- Renaming the rules that are counted renames the counts. -/
theorem entries_rename (h : Renamable f rules) :
    ((empty : Grammar κ).countAll (rules.map (Rule.rename f))).counts.entries =
      ((empty : Grammar κ).countAll rules).counts.entries.map fun entry =>
        ((entry.2.rename f).rule.key, entry.2.rename f) := by
  induction rules using List.reverseRecOn with
  | nil => rfl
  | append_singleton rules rule ih =>
    have hrules : ∀ other ∈ rules, other ∈ rules ++ [rule] := fun _ => List.mem_append_left [rule]
    have hrule : rule ∈ rules ++ [rule] := List.mem_append_right rules List.mem_cons_self
    rw [List.map_append, List.map_singleton, counts_countAll_append_singleton,
      counts_countAll_append_singleton, OrderedMap.alter, OrderedMap.alter, ih (h.mono hrules)]
    refine (OrderedMap.map_alterEntries (fun entry hentry => ?_) rfl
      fun entry hentry hsame => ?_).symm
    · obtain ⟨first, hfirst, hkey, -, hrenamed⟩ :=
        exists_rename_of_mem_counts (h.mono hrules) hentry
      have hiff := h.key_rename_iff (hrules first hfirst) hrule
      have hentrykey : (entry.2.rename f).rule.key = (first.rename f).key := by
        rw [Tally.rename, hrenamed]
        rfl
      rw [Bool.eq_iff_iff, beq_iff_eq, beq_iff_eq, hentrykey, ← hkey, hiff]
    · obtain ⟨first, hfirst, hkey, hform, hrenamed⟩ :=
        exists_rename_of_mem_counts (h.mono hrules) hentry
      have hadd : (Tally.add rule (some entry.2)).rename f =
          Tally.add (rule.rename f) (some (entry.2.rename f)) := by
        refine Tally.rename_add fun hlexical => ?_
        have hfixed : first.rename f = first := h.rename_eq_of_lexical (hrules first hfirst) hrule
          (hkey.trans (eq_of_beq hsame)) hlexical
        rw [hrenamed, hfixed, ← hform]
      rw [hadd]
      rfl

/-! ## Costs -/

/-- Renaming leaves the total of the left-hand side of a rule as it is. -/
theorem totalOf_rename (h : Renamable f rules) {rule : Rule κ} (hr : rule ∈ rules) :
    ((empty : Grammar κ).countAll (rules.map (Rule.rename f))).totalOf (rule.rename f).lhs.text =
      ((empty : Grammar κ).countAll rules).totalOf rule.lhs.text := by
  rw [totalOf_countAll, totalOf_countAll, List.countP_map]
  refine List.countP_congr fun other ho => ?_
  rw [Function.comp_apply, beq_iff_eq, beq_iff_eq, h.text_rename_iff ho hr]

variable [Cost κ]

/-- Renaming the rules that are counted renames the priced ones. -/
theorem priced_rename (h : Renamable f rules) :
    ((empty : Grammar κ).countAll (rules.map (Rule.rename f))).priced =
      ((empty : Grammar κ).countAll rules).priced.map (Rule.rename f) := by
  rw [priced, priced, entries_rename h, List.map_map, List.map_map]
  refine List.map_congr_left fun entry hentry => ?_
  obtain ⟨first, hfirst, hkey, -, hrenamed⟩ := exists_rename_of_mem_counts h hentry
  have hlhs : (entry.2.rename f).rule.key.1 = (first.rename f).lhs.text := by
    rw [Tally.rename, hrenamed]
    rfl
  have hlhs' : entry.1.1 = first.lhs.text := by
    rw [← hkey]
    rfl
  have htotal := totalOf_rename h hfirst
  rw [← hlhs, ← hlhs', totalOf, totalOf] at htotal
  simp only [Function.comp_apply, htotal]
  rfl

/-- Renaming the rules that are counted renames the estimated grammar. -/
theorem estimate_rename (h : Renamable f rules) :
    (empty.countAll rules).estimate.RenamedBy f
      ((empty : Grammar κ).countAll (rules.map (Rule.rename f))).estimate := by
  have hpriced := priced_rename h
  -- A lexical rule is the same as one that was counted as a lexical one.
  have hfixed : ∀ s ∈ ((empty : Grammar κ).countAll rules).priced.filter Rule.lexical,
      s.rename f = s := by
    intro s hs
    obtain ⟨hs, hlexical⟩ := List.mem_filter.1 hs
    obtain ⟨⟨rule, hr, hlhs, hrhs⟩, hmark⟩ := exists_mem_of_mem_priced hs
    obtain ⟨other, ho, hkey, hother⟩ := hmark.1 hlexical
    have hrule : rule.rename f = rule := h.rename_eq_of_lexical hr ho
      ((Rule.key_eq_of_sides hlhs hrhs).symm.trans hkey.symm) hother
    have hsame : s.lhs.rename f = s.lhs := by
      rw [hlhs]
      exact congrArg Rule.lhs hrule
    rw [Rule.rename, hsame, hlexical, if_pos rfl, ← hlexical]
  have hlexical : ((empty : Grammar κ).countAll (rules.map (Rule.rename f))).priced.filter
      Rule.lexical = ((empty : Grammar κ).countAll rules).priced.filter Rule.lexical := by
    rw [hpriced, List.filter_map]
    exact (List.map_congr_left hfixed).trans (List.map_id _)
  refine ⟨entries_rename h, ?_, ?_, ?_⟩
  · show List.filter _ _ = List.map _ (List.filter _ _)
    rw [hpriced, List.filter_map]
    rfl
  · exact congrArg lexiconOf hlexical
  · exact congrArg (fun rules => smoothingOf (lexicalTags (lexiconOf rules))) hlexical

end Grammar

end Constituency
