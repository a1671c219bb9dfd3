import Constituency.Proofs.Decoding.Fill
import Constituency.Proofs.Tagging

/-!
# What decoding returns

The tree that a decoder returns is derived by its grammar over the sentence, at the cost that it
returns (`decode_sound`). The chart of a sentence whose words can be tagged is filled whatever the
grammar is, so this needs nothing of the grammar: the best edge of the start symbol over the whole
sentence stands for a reading.
-/

namespace Constituency

/-- The span of a whole sentence picks all its words. -/
theorem Span.pick_whole {α : Type} {n : Nat} {s : Span n} {words : List α} (hn : words.length = n)
    (hstart : s.start = 0) (hstop : s.stop = n) : s.pick words = words := by
  rw [pick, hstart, List.drop_zero, List.take_of_length_le]
  rw [length, hstart, hstop, hn]
  exact Nat.le_refl _

namespace Chart

variable {κ : Type} [Cost κ] {n : Nat}

/-- The best derivation over the whole sentence is the best edge of the symbol there. -/
theorem derivation?_eq_some_iff {chart : Chart κ n} {start : String} {t : Tree} {cost : κ} :
    chart.derivation? start = some (t, cost) ↔
      ∃ whole : Span n, whole.start = 0 ∧ whole.stop = n ∧ ∃ number,
        chart.best? whole start = some number ∧ chart.tree? number = some t ∧
        chart.costOf number = cost := by
  simp only [derivation?, Option.bind_eq_bind, Option.bind_eq_some_iff, Option.pure_def,
    Option.some.injEq, Prod.mk.injEq, Span.between?_eq_some_iff]
  constructor
  · rintro ⟨whole, ⟨hstart, hstop⟩, number, hb, t', ht, rfl, hc⟩
    exact ⟨whole, hstart, hstop, number, hb, ht, hc⟩
  · rintro ⟨whole, hstart, hstop, number, hb, ht, hc⟩
    exact ⟨whole, ⟨hstart, hstop⟩, number, hb, t, ht, rfl, hc⟩

end Chart

namespace Decoder

variable {κ : Type} [Cost κ] {g : Grammar κ} {unknown : UnknownWords κ} {start top : String}
  {d : Decoder κ} {words : List String}

omit [Cost κ] in
/-- A grammar that could be made ready, and what has been made of it. -/
theorem eq_of_ofGrammar (hd : Decoder.ofGrammar g unknown start top = .ok d) :
    d = ⟨g, .ofGrammar g, unknown, start, top⟩ := by
  unfold ofGrammar at hd
  split at hd
  · exact absurd hd nofun
  · exact (Except.ok.inj hd).symm

/-- A sentence is tagged by tagging its words. -/
theorem tagged_eq_ok_iff {tagged : List (String × List (Candidate κ))} :
    d.tagged words = .ok tagged ↔
      tagged.map Prod.fst = words ∧ ∀ p ∈ tagged, d.grammar.tag d.unknown p.1 = .ok p.2 := by
  have hword : ∀ (word : String) (p : String × List (Candidate κ)),
      (do let candidates ← d.grammar.tag d.unknown word; return (word, candidates) :
        Except UnnamedRule (String × List (Candidate κ))) = .ok p ↔
      p.1 = word ∧ d.grammar.tag d.unknown word = .ok p.2 := by
    intro word p
    obtain ⟨text, candidates⟩ := p
    cases htag : d.grammar.tag d.unknown word with
    | error rule =>
      constructor
      · exact nofun
      · rintro ⟨-, h⟩
        exact absurd h nofun
    | ok found =>
      constructor
      · intro h
        obtain ⟨rfl, rfl⟩ := Prod.mk.inj (Except.ok.inj h)
        exact ⟨rfl, rfl⟩
      · rintro ⟨rfl, h⟩
        obtain rfl := Except.ok.inj h
        rfl
  rw [Decoder.tagged, mapM_eq_ok_iff]
  constructor
  · intro h
    induction h with
    | nil => exact ⟨rfl, by simp⟩
    | cons hp _ ih =>
      obtain ⟨hfirst, htag⟩ := (hword _ _).1 hp
      rw [List.map_cons, hfirst, ih.1]
      refine ⟨rfl, fun p hmem => ?_⟩
      rcases List.mem_cons.1 hmem with rfl | hmem
      · rw [hfirst]
        exact htag
      · exact ih.2 p hmem
  · rintro ⟨rfl, htag⟩
    induction tagged with
    | nil => exact .nil
    | cons p rest ih =>
      exact .cons ((hword _ _).2 ⟨rfl, htag p List.mem_cons_self⟩)
        (ih fun q hq => htag q (List.mem_cons_of_mem p hq))

/-- If every word can be tagged, the sentence can. -/
theorem exists_tagged
    (h : ∀ word ∈ words, ∃ candidates, d.grammar.tag d.unknown word = .ok candidates) :
    ∃ tagged, d.tagged words = .ok tagged := by
  refine exists_mapM_eq_ok fun word hw => ?_
  obtain ⟨candidates, htag⟩ := h word hw
  exact ⟨(word, candidates), by rw [htag]; rfl⟩

/-- The chart that a decoder fills for a sentence has all its spans filled. -/
theorem filled (hd : Decoder.ofGrammar g unknown start top = .ok d)
    {tagged : List (String × List (Candidate κ))} (htag : d.tagged words = .ok tagged) :
    words.length = tagged.length ∧
      (Chart.fill (.ofGrammar g) tagged).Filled g unknown words fun _ => True := by
  obtain rfl := eq_of_ofGrammar hd
  obtain ⟨rfl, hall⟩ := tagged_eq_ok_iff.1 htag
  exact ⟨List.length_map _, Chart.filled_fill hall⟩

/-- What the best derivation of a filled chart is: a reading of the whole sentence. -/
theorem reading_of_derivation? (hd : Decoder.ofGrammar g unknown start top = .ok d)
    {tagged : List (String × List (Candidate κ))} (htag : d.tagged words = .ok tagged)
    {t : Tree} {cost : κ}
    (h : (Chart.fill (.ofGrammar g) tagged).derivation? start = some (t, cost)) :
    g.Parses unknown start words t cost ∧
      t.InOrder (Chart.fill (.ofGrammar g) tagged).Before 0 := by
  obtain ⟨hn, hfilled⟩ := filled hd htag
  obtain ⟨whole, hstart, hstop, number, hb, ht, rfl⟩ := Chart.derivation?_eq_some_iff.1 h
  obtain ⟨t', ht', hreading⟩ := hfilled.sound whole start number hb
  obtain rfl := Option.some.inj (ht.symm.trans ht')
  exact ⟨⟨hreading.label, by rw [hreading.words, Span.pick_whole hn hstart hstop],
    hreading.derives⟩, hstart ▸ hreading.inOrder⟩

/-- What a decoder returns is the best derivation of the chart under the top symbol. -/
theorem derivation?_of_decode (hd : Decoder.ofGrammar g unknown start top = .ok d)
    {r : Derivation κ} (h : d.decode words = .ok r) :
    ∃ tagged t, d.tagged words = .ok tagged ∧ r.tree = .node top [t] ∧
      (Chart.fill (.ofGrammar g) tagged).derivation? start = some (t, r.cost) := by
  obtain rfl := eq_of_ofGrammar hd
  unfold decode at h
  split at h
  · exact absurd h nofun
  · split at h
    · exact absurd h nofun
    · rename_i tagged htag
      dsimp only at h
      split at h
      · exact absurd h nofun
      · split at h
        · rename_i t cost hderivation
          obtain rfl := Except.ok.inj h
          exact ⟨tagged, t, htag, rfl, hderivation⟩
        · exact absurd h nofun

/-- What a decoder returns stands under the top symbol and has the words of the sentence. -/
theorem label_words_of_decode (hd : Decoder.ofGrammar g unknown start top = .ok d)
    {r : Derivation κ} (h : d.decode words = .ok r) :
    r.tree.label = top ∧ r.tree.words = words := by
  obtain ⟨tagged, t, htag, htree, hderivation⟩ := derivation?_of_decode hd h
  obtain ⟨hparses, -⟩ := reading_of_derivation? hd htag hderivation
  rw [htree, Tree.words_unary]
  exact ⟨rfl, hparses.words⟩

/-- What a decoder returns is a parse of the sentence under the top symbol, at the cost that it
returns. -/
theorem decode_sound (hd : Decoder.ofGrammar g unknown start top = .ok d) {r : Derivation κ}
    (h : d.decode words = .ok r) :
    ∃ t, r.tree = .node top [t] ∧ g.Parses unknown start words t r.cost := by
  obtain ⟨tagged, t, htag, htree, hderivation⟩ := derivation?_of_decode hd h
  exact ⟨t, htree, (reading_of_derivation? hd htag hderivation).1⟩

/-- A grammar in which "dogs bark" is a sentence. -/
def barking : Grammar WholeCost where
  counts := .empty
  syntactic := [.plain ⟨["S"]⟩ ⟨["N", "V"]⟩ ⟨1⟩]
  lexicon := ⟨[("dogs", [.ofWord "N" "dogs" ⟨2⟩]),
    ("bark", [.ofWord "N" "bark" ⟨5⟩, .ofWord "V" "bark" ⟨3⟩])]⟩
  smoothing := [⟨"N", ⟨1⟩⟩]

/-- The sentence is decoded. -/
theorem decode_sound_barking :
    ∃ d r, Decoder.ofGrammar barking (.standard ⟨1⟩) "S" "TOP" = .ok d ∧
      d.decode ["dogs", "bark"] = .ok r ∧
      ∃ t, r.tree = .node "TOP" [t] ∧
        barking.Parses (.standard ⟨1⟩) "S" ["dogs", "bark"] t r.cost := by
  have hd : Decoder.ofGrammar barking (.standard ⟨1⟩) "S" "TOP" =
      .ok ⟨barking, .ofGrammar barking, .standard ⟨1⟩, "S", "TOP"⟩ := rfl
  have hdecode : (Decoder.mk barking (.ofGrammar barking) (.standard ⟨1⟩) "S" "TOP").decode
      ["dogs", "bark"] = .ok ⟨.node "TOP" [.node "S" [.node "N" [.leaf "dogs"],
        .node "V" [.leaf "bark"]]], ⟨6⟩⟩ := by decide +kernel
  exact ⟨_, _, hd, hdecode, decode_sound hd hdecode⟩

end Decoder

end Constituency
