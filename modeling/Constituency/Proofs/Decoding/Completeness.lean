import Constituency.Proofs.Decoding.Decoder
import Constituency.Proofs.Rule

/-!
# What decoding finds

In a filled chart a span has exactly the labels of the trees that the grammar derives over its words
(`Filled.mem_labels_iff`), so if its rules have one symbol on the left a grammar decodes every
sentence that it derives (`decode_complete`).

The index keeps one of the rules that have the same text. If symbols are words, such rules have the
same symbols, and the labels of a span are also those that the grammar itself covers it with.
-/

namespace Constituency

namespace Chart

variable {κ : Type} [Cost κ] {n : Nat} {g : Grammar κ} {unknown : UnknownWords κ}
  {words : List String} {chart : Chart κ n}

/-- The root of a derived tree is a label of the span of its words. -/
theorem Filled.mem_labels_of_derives (hn : words.length = n)
    (h : chart.Filled g unknown words fun _ => True) {t : Tree} {cost : κ}
    (ht : g.Derives unknown t cost) {s : Span n} (hs : t.words = s.pick words) :
    t.label ∈ (chart.cell s).labels := by
  induction ht generalizing s with
  | word tagged mem =>
    rw [Tree.words_unary, Tree.words_leaf] at hs
    obtain ⟨hlength, here⟩ := Span.getElem?_of_pick_eq_singleton hn hs.symm
    exact (h.settled s trivial).word hlength here tagged mem
  | unary numbered named rhs _ ih =>
    rw [Tree.words_unary] at hs
    exact (h.settled s trivial).unary numbered named rhs (ih hs)
  | @binary rule label l r _ _ numbered named rhs _ _ ihl ihr =>
    rw [Tree.words_binary] at hs
    -- The words of the two trees divide the span.
    obtain ⟨left, right, hsplit, hleft, hright⟩ :=
      Span.exists_split_of_append hn hs l.words_ne_nil r.words_ne_nil
    exact (h.settled s trivial).binary hsplit numbered named rhs (ihl hleft.symm)
      (ihr hright.symm)

/-- The labels of a span are those of the trees that the grammar derives over its words. -/
theorem Filled.mem_labels_iff (hn : words.length = n)
    (h : chart.Filled g unknown words fun _ => True) {s : Span n} {label : String} :
    label ∈ (chart.cell s).labels ↔
      ∃ t cost, t.label = label ∧ g.Derives unknown t cost ∧ t.words = s.pick words := by
  constructor
  · intro hl
    obtain ⟨number, hb⟩ := exists_best? hl
    obtain ⟨t, -, hreading⟩ := h.sound s label number hb
    exact ⟨t, _, hreading.label, hreading.derives, hreading.words⟩
  · rintro ⟨t, cost, rfl, hderives, hs⟩
    exact h.mem_labels_of_derives hn hderives hs

end Chart

namespace Grammar

variable {κ : Type}

/-- The symbols of the syntactic rules are words. -/
def PlainSymbols (g : Grammar κ) : Prop := ∀ rule ∈ g.syntactic, rule.Plain

variable [Cost κ] {unknown : UnknownWords κ} {words : List String}

/-- If symbols are words, a label that covers a part of a sentence is that of a tree which the
grammar derives over it. -/
theorem Covers.exists_derives {n : Nat} {g : Grammar κ} (hplain : g.PlainSymbols)
    (hn : words.length = n) {start stop : Nat} {label : String}
    (h : g.Covers unknown words start stop label) :
    ∀ {s : Span n}, s.start = start → s.stop = stop →
      ∃ t cost, t.label = label ∧ g.Derives unknown t cost ∧ t.words = s.pick words := by
  -- A rule of the grammar is the same as a numbered one, which has its symbols.
  have hnumbered : ∀ {rule : Rule κ} {label : String}, rule ∈ g.syntactic →
      rule.lhs.symbols = [label] → ∃ r ∈ (RuleIndex.ofGrammar g).rules,
        r.label? = some label ∧ r.rhs.symbols = rule.rhs.symbols := by
    intro rule label hr hl
    obtain ⟨r, hmem, hkey⟩ := RuleIndex.exists_mem_rules_of_mem_syntactic hr
    obtain ⟨hlhs, hrhs⟩ :=
      (hplain r (RuleIndex.mem_syntactic_of_mem_rules hmem)).sides_eq (hplain rule hr) hkey
    exact ⟨r, hmem, by rw [Rule.label?, hlhs, hl]; rfl, by rw [hrhs]⟩
  induction h with
  | @word place text candidates candidate here tagged mem =>
    intro s hstart hstop
    have hlength : s.length = 1 := by rw [Span.length, hstart, hstop, Nat.add_sub_cancel_left]
    refine ⟨_, _, rfl, .word tagged mem, ?_⟩
    rw [Tree.words_unary, Tree.words_leaf, s.pick_of_length_one hlength (hstart ▸ here)]
  | unary mem lhs rhs _ ih =>
    intro s hstart hstop
    obtain ⟨t, cost, rfl, hderives, hwords⟩ := ih hstart hstop
    obtain ⟨r, hr, hlabel, hrhs⟩ := hnumbered mem lhs
    exact ⟨_, _, rfl, .unary hr hlabel (hrhs.trans rhs) hderives, by rw [Tree.words_unary, hwords]⟩
  | @binary rule label first second start middle stop mem lhs rhs left right ihl ihr =>
    intro s hstart hstop
    have hl := left.bounds
    have hr := right.bounds
    let a : Span n := ⟨start, middle, hl.1, by omega⟩
    let b : Span n := ⟨middle, stop, hr.1, by omega⟩
    have hsplit : (a, b) ∈ s.splits := Span.mem_splits.2 ⟨hstart.symm, rfl, hstop.symm⟩
    obtain ⟨l, lcost, rfl, lderives, lwords⟩ := ihl (s := a) rfl rfl
    obtain ⟨r, rcost, rfl, rderives, rwords⟩ := ihr (s := b) rfl rfl
    obtain ⟨numbered, hmem, hlabel, hrhs⟩ := hnumbered mem lhs
    refine ⟨_, _, rfl, .binary hmem hlabel (hrhs.trans rhs) lderives rderives, ?_⟩
    rw [Tree.words_binary, lwords, rwords, Span.pick_append hsplit]

end Grammar

namespace Decoder

variable {κ : Type} [Cost κ] {g : Grammar κ} {unknown : UnknownWords κ} {start top : String}
  {d : Decoder κ} {words : List String}

omit [Cost κ] in
/-- A grammar that has parts of speech for unknown words can be made ready. -/
theorem exists_ofGrammar_eq_ok (h : g.smoothing ≠ []) (unknown : UnknownWords κ)
    (start top : String) :
    ∃ d, Decoder.ofGrammar g unknown start top = .ok d := by
  rw [Decoder.ofGrammar, List.isEmpty_eq_false_iff.2 h, if_neg Bool.false_ne_true]
  exact ⟨_, rfl⟩

omit [Cost κ] in
/-- If rules have one symbol on the left, none is unnamed. -/
theorem unnamed_ofGrammar (h : ∀ rule ∈ g.syntactic, rule.lhs.symbols.length = 1) :
    (RuleIndex.ofGrammar g).unnamed = [] := by
  refine List.filter_eq_nil_iff.2 fun rule hr => ?_
  have hmem := RuleIndex.mem_syntactic_of_mem_rules (Array.mem_toList_iff.1 hr)
  obtain ⟨symbol, hsymbol⟩ := List.length_eq_one_iff.1 (h rule hmem)
  rw [Rule.label?, hsymbol]
  exact Bool.false_ne_true

/-- If rules have one symbol on the left, every sentence can be tagged. -/
theorem exists_tagged_of_oneLeft (hd : Decoder.ofGrammar g unknown start top = .ok d)
    (hone : g.OneLeft) (words : List String) : ∃ tagged, d.tagged words = .ok tagged := by
  refine exists_tagged fun word _ => ?_
  rw [eq_of_ofGrammar hd]
  exact hone.exists_tag_eq_ok unknown word

/-- If rules have one symbol on the left, a sentence that can be tagged is decoded to the best
derivation of its chart. -/
theorem decode_of_tagged (hd : Decoder.ofGrammar g unknown start top = .ok d)
    (hlhs : ∀ rule ∈ g.syntactic, rule.lhs.symbols.length = 1) (hwords : words ≠ [])
    {tagged : List (String × List (Candidate κ))} (htag : d.tagged words = .ok tagged) :
    d.decode words =
      match (Chart.fill (.ofGrammar g) tagged).derivation? start with
      | some (t, cost) => .ok ⟨.node top [t], cost⟩
      | none => .error (.noParse start words.length) := by
  obtain rfl := eq_of_ofGrammar hd
  rw [decode, List.isEmpty_eq_false_iff.2 hwords, if_neg Bool.false_ne_true, htag]
  cases hderivation : (Chart.fill (.ofGrammar g) tagged).derivation? start with
  | none => simp only [unnamed_ofGrammar hlhs, List.find?_nil, hderivation]
  | some found =>
    obtain ⟨t, cost⟩ := found
    simp only [unnamed_ofGrammar hlhs, List.find?_nil, hderivation]

/-- If rules have one symbol on the left, a sentence is decoded, or it has no parse. -/
theorem decode_cases (hd : Decoder.ofGrammar g unknown start top = .ok d) (hone : g.OneLeft)
    (words : List String) :
    (∃ r, d.decode words = .ok r) ∨ d.decode words = .error (.noParse start words.length) := by
  by_cases hwords : words = []
  · subst hwords
    rw [eq_of_ofGrammar hd]
    exact Or.inr rfl
  · obtain ⟨tagged, htag⟩ := exists_tagged_of_oneLeft hd hone words
    rw [decode_of_tagged hd hone.syntactic hwords htag]
    cases (Chart.fill (.ofGrammar g) tagged).derivation? start with
    | none => exact Or.inr rfl
    | some found => exact Or.inl ⟨_, rfl⟩

/-- If rules have one symbol on the left, a sentence with a derivation is decoded. -/
theorem exists_decode_eq_ok (hd : Decoder.ofGrammar g unknown start top = .ok d)
    (hlhs : ∀ rule ∈ g.syntactic, rule.lhs.symbols.length = 1)
    {tagged : List (String × List (Candidate κ))} (htag : d.tagged words = .ok tagged) {t : Tree}
    {cost : κ} (ht : g.Parses unknown start words t cost) :
    ∃ t' cost', (Chart.fill (.ofGrammar g) tagged).derivation? start = some (t', cost') ∧
      d.decode words = .ok ⟨.node top [t'], cost'⟩ := by
  obtain ⟨hn, hfilled⟩ := filled hd htag
  have hne : words ≠ [] := ht.words ▸ t.words_ne_nil
  have hpos : 0 < tagged.length := hn ▸ List.length_pos_iff.2 hne
  let whole : Span tagged.length := ⟨0, tagged.length, hpos, Nat.le_refl _⟩
  -- The start symbol is a label of the whole span, so it has a best edge there.
  have hmem := hfilled.mem_labels_of_derives hn ht.derives (s := whole)
    (by rw [ht.words, Span.pick_whole hn rfl rfl])
  obtain ⟨number, hb⟩ := Chart.exists_best? (ht.label ▸ hmem)
  obtain ⟨t', ht', -⟩ := hfilled.sound whole start number hb
  have hderivation := Chart.derivation?_eq_some_iff.2
    ⟨whole, rfl, rfl, number, hb, ht', rfl⟩
  exact ⟨t', _, hderivation, by rw [decode_of_tagged hd hlhs hne htag, hderivation]⟩

/-- If its rules have one symbol on the left and their symbols are words, a decoder fails only for
want of a derivation, and the labels of its chart are those that the grammar covers each span
with. -/
theorem decode_complete (hd : Decoder.ofGrammar g unknown start top = .ok d) (hone : g.OneLeft)
    (hplain : g.PlainSymbols) :
    (∀ error, d.decode words = .error error ↔
      error = .noParse start words.length ∧
        (words = [] ∨ ¬ ∃ t cost, g.Parses unknown start words t cost)) ∧
      ∃ tagged, d.tagged words = .ok tagged ∧ ∀ (s : Span tagged.length) (label : String),
        label ∈ ((Chart.fill d.index tagged).cell s).labels ↔
          g.Covers unknown words s.start s.stop label := by
  have hgrammar := eq_of_ofGrammar hd
  obtain ⟨tagged, htag⟩ := exists_tagged_of_oneLeft hd hone words
  obtain ⟨hn, hfilled⟩ := filled hd htag
  refine ⟨fun error => ?_, tagged, htag, fun s label => ?_⟩
  · by_cases hwords : words = []
    · subst hwords
      have hdecode : d.decode [] = .error (.noParse start 0) := by rw [hgrammar]; rfl
      rw [hdecode, Except.error.injEq]
      exact ⟨fun h => ⟨h.symm, Or.inl rfl⟩, fun h => h.1.symm⟩
    · by_cases hparses : ∃ t cost, g.Parses unknown start words t cost
      · obtain ⟨t, cost, ht⟩ := hparses
        obtain ⟨t', cost', -, hdecode⟩ := exists_decode_eq_ok hd hone.syntactic htag ht
        rw [hdecode]
        constructor
        · exact nofun
        · rintro ⟨-, hnil | hnone⟩
          · exact absurd hnil hwords
          · exact absurd ⟨t, cost, ht⟩ hnone
      · have hdecode := decode_of_tagged hd hone.syntactic hwords htag
        cases hderivation : (Chart.fill (.ofGrammar g) tagged).derivation? start with
        | some found =>
          obtain ⟨t, cost⟩ := found
          exact absurd ⟨t, cost, (reading_of_derivation? hd htag hderivation).1⟩ hparses
        | none =>
          rw [hderivation] at hdecode
          rw [hdecode, Except.error.injEq]
          exact ⟨fun h => ⟨h.symm, Or.inr hparses⟩, fun h => h.1.symm⟩
  · have hindex : d.index = .ofGrammar g := by rw [hgrammar]
    rw [hindex, hfilled.mem_labels_iff hn]
    constructor
    · rintro ⟨t, cost, rfl, hderives, hwords⟩
      exact hderives.covers hn hone.syntactic hwords
    · intro hcovers
      exact hcovers.exists_derives hplain hn rfl rfl

/-- A grammar in which "dogs bark" is a sentence. Its verb is a verb phrase by a rule over one
symbol. -/
def phrases : Grammar WholeCost where
  counts := .empty
  syntactic := [.plain ⟨["S"]⟩ ⟨["N", "VP"]⟩ ⟨1⟩, .plain ⟨["VP"]⟩ ⟨["V"]⟩ ⟨0⟩]
  lexicon := ⟨[("dogs", [.ofWord "N" "dogs" ⟨2⟩]), ("bark", [.ofWord "V" "bark" ⟨3⟩])]⟩
  smoothing := [⟨"N", ⟨1⟩⟩]

/-- The sentence has a parse, and the labels of its last word and of the whole are those in the
chart. The other way round the words have no parse. -/
theorem decode_complete_barking :
    ∃ d, Decoder.ofGrammar phrases (.standard ⟨1⟩) "S" "TOP" = .ok d ∧ phrases.OneLeft ∧
      phrases.PlainSymbols ∧
      (∃ t cost, phrases.Parses (.standard ⟨1⟩) "S" ["dogs", "bark"] t cost) ∧
      (∀ label, phrases.Covers (.standard ⟨1⟩) ["dogs", "bark"] 1 2 label ↔
        label = "V" ∨ label = "VP") ∧
      (∀ label, phrases.Covers (.standard ⟨1⟩) ["dogs", "bark"] 0 2 label ↔ label = "S") ∧
      ¬ ∃ t cost, phrases.Parses (.standard ⟨1⟩) "S" ["bark", "dogs"] t cost := by
  let d : Decoder WholeCost := ⟨phrases, .ofGrammar phrases, .standard ⟨1⟩, "S", "TOP"⟩
  have hd : Decoder.ofGrammar phrases (.standard ⟨1⟩) "S" "TOP" = .ok d := rfl
  have hone : phrases.OneLeft := Grammar.oneLeft_of_values (by decide) (by decide)
  have hplain : phrases.PlainSymbols := by
    unfold Grammar.PlainSymbols
    decide
  obtain ⟨tagged, htag, hlabels⟩ : ∃ tagged, d.tagged ["dogs", "bark"] = .ok tagged ∧
      ∀ (s : Span tagged.length) (label : String),
        label ∈ ((Chart.fill d.index tagged).cell s).labels ↔
          phrases.Covers (.standard ⟨1⟩) ["dogs", "bark"] s.start s.stop label :=
    (decode_complete hd hone hplain).2
  have htagged : d.tagged ["dogs", "bark"] =
      .ok [("dogs", [⟨"N", ⟨2⟩, .lexicon⟩]), ("bark", [⟨"V", ⟨3⟩, .lexicon⟩])] := by
    decide +kernel
  obtain rfl := Except.ok.inj (htagged.symm.trans htag)
  refine ⟨d, hd, hone, hplain, ?_, fun label => ?_, fun label => ?_, ?_⟩
  · by_contra hnone
    have herror := ((decode_complete hd hone hplain).1 (.noParse "S" 2)).2 ⟨rfl, Or.inr hnone⟩
    have hdecode : d.decode ["dogs", "bark"] = .ok ⟨.node "TOP" [.node "S"
        [.node "N" [.leaf "dogs"], .node "VP" [.node "V" [.leaf "bark"]]]], ⟨6⟩⟩ := by
      decide +kernel
    exact absurd (hdecode.symm.trans herror) nofun
  · rw [← hlabels ⟨1, 2, by decide, by decide⟩ label]
    have hcell : ((Chart.fill d.index [("dogs", [⟨"N", ⟨2⟩, .lexicon⟩]),
        ("bark", [⟨"V", ⟨3⟩, .lexicon⟩])]).cell ⟨1, 2, by decide, by decide⟩).labels =
          ["V", "VP"] := by decide +kernel
    rw [hcell]
    simp
  · rw [← hlabels ⟨0, 2, by decide, by decide⟩ label]
    have hcell : ((Chart.fill d.index [("dogs", [⟨"N", ⟨2⟩, .lexicon⟩]),
        ("bark", [⟨"V", ⟨3⟩, .lexicon⟩])]).cell ⟨0, 2, by decide, by decide⟩).labels =
          ["S"] := by decide +kernel
    rw [hcell]
    simp
  · have hdecode : d.decode ["bark", "dogs"] = .error (.noParse "S" 2) := by decide +kernel
    exact (((decode_complete hd hone hplain).1 _).1 hdecode).2.resolve_left (List.cons_ne_nil _ _)

end Decoder

end Constituency
