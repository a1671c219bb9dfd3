import Constituency.Proofs.ChainShape
import Constituency.Proofs.Markovization
import Constituency.Proofs.Tree.Reader

/-!
# What the names in a chain tell

Without a bound, what a chain introduces is named after all the symbols taken so far and after the
left-hand side. The name tells the left-hand side and the text of these symbols, with commas between
them (`names_tell_history`), unless a left-hand side and a symbol both hold the bracket and the mark
that stand between a window and a parent. The text tells the symbols if there is no comma in them.
With commas it does not, and two rules that begin with different symbols share what they introduce
(`not_names_tell_history`).
-/

namespace Constituency.Binarizer

open Markovization (Closes)

variable {κ : Type} [Cost κ]

/-- A rule of a chain without a bound rewrites the symbol that is introduced for the symbols taken
before. -/
theorem lhs_of_unbounded {rule : Rule κ} (hsize : 2 < rule.rhs.size) {place : Nat} {link : Rule κ}
    (hlink : ((new .unbounded).binarize rule).2[place + 1]? = some link) :
    link.lhs =
      Side.single (Markovization.introduced (rule.rhs.symbols.take (place + 1)) rule.lhs.text) := by
  rw [(chainOf_binarize_new .unbounded hsize).lhs_eq hlink, ← Markovization.introduced_window]
  rfl

/-- Two rules of chains without a bound rewrite the same introduced symbol exactly if the rules that
they divide have the same left-hand side and the symbols taken before have the same text with commas
between them; so, if these hold no commas, only after the same symbols. It is taken for granted that
the bracket and the mark that end a window do not stand together in a left-hand side and in a symbol
of the other rule. -/
theorem names_tell_history {first second : Rule κ} (hfirst : 2 < first.rhs.size)
    (hsecond : 2 < second.rhs.size) {place place' : Nat} {link link' : Rule κ}
    (hlink : ((new .unbounded).binarize first).2[place + 1]? = some link)
    (hlink' : ((new .unbounded).binarize second).2[place' + 1]? = some link')
    (hclosing : Closes first.lhs.text →
      ∀ symbol ∈ second.rhs.symbols.take (place' + 1), ¬ Closes symbol)
    (hclosing' : Closes second.lhs.text →
      ∀ symbol ∈ first.rhs.symbols.take (place + 1), ¬ Closes symbol) :
    (link.lhs = link'.lhs ↔
      first.lhs.text = second.lhs.text ∧
        ",".intercalate (first.rhs.symbols.take (place + 1)) =
          ",".intercalate (second.rhs.symbols.take (place' + 1))) ∧
    ((∀ symbol ∈ first.rhs.symbols.take (place + 1) ++ second.rhs.symbols.take (place' + 1),
        ',' ∉ symbol.toList) →
      link.lhs = link'.lhs →
        first.lhs.text = second.lhs.text ∧
          first.rhs.symbols.take (place + 1) = second.rhs.symbols.take (place' + 1)) := by
  have hiff : link.lhs = link'.lhs ↔
      first.lhs.text = second.lhs.text ∧
        ",".intercalate (first.rhs.symbols.take (place + 1)) =
          ",".intercalate (second.rhs.symbols.take (place' + 1)) := by
    rw [lhs_of_unbounded hfirst hlink, lhs_of_unbounded hsecond hlink', Side.single_inj,
      Markovization.introduced_eq_iff hclosing hclosing']
  have hne : ∀ {rule : Rule κ} {place : Nat}, 2 < rule.rhs.size →
      rule.rhs.symbols.take (place + 1) ≠ [] := by
    intro rule place hsize
    rw [Side.size] at hsize
    exact List.ne_nil_of_length_pos (by rw [List.length_take]; omega)
  refine ⟨hiff, fun hcomma h => ?_⟩
  obtain ⟨hparent, htext⟩ := hiff.1 h
  exact ⟨hparent, Markovization.intercalate_inj
    (fun symbol hs => hcomma symbol (List.mem_append_left _ hs))
    (fun symbol hs => hcomma symbol (List.mem_append_right _ hs)) (hne hfirst) (hne hsecond)
    htext⟩

/-- Two rules with the same beginning, whose second symbol holds the bracket and the mark. -/
def bracketRules : Rule WholeCost × Rule WholeCost :=
  (.plain ⟨["NP"]⟩ ⟨["DT", "]@JJ", "NN", "NN"]⟩ 0, .plain ⟨["NP"]⟩ ⟨["DT", "]@JJ", "JJ", "NN"]⟩ 0)

/-- After two symbols the two rules have introduced the same symbol. -/
theorem names_tell_history_bracketRules :
    let first := bracketRules.1
    let second := bracketRules.2
    ∃ link link' : Rule WholeCost,
      2 < first.rhs.size ∧ 2 < second.rhs.size ∧
      ((new .unbounded).binarize first).2[2]? = some link ∧
      ((new .unbounded).binarize second).2[2]? = some link' ∧
      (Closes first.lhs.text → ∀ symbol ∈ second.rhs.symbols.take 2, ¬ Closes symbol) ∧
      (Closes second.lhs.text → ∀ symbol ∈ first.rhs.symbols.take 2, ¬ Closes symbol) ∧
      link.lhs = link'.lhs ∧ first.lhs.text = second.lhs.text ∧
      first.rhs.symbols.take 2 = second.rhs.symbols.take 2 := by
  intro first second
  have hsizes : 2 < first.rhs.size ∧ 2 < second.rhs.size := by decide
  have hclosing : ¬ Closes first.lhs.text := by decide
  have hclosing' : ¬ Closes second.lhs.text := by decide
  have hlink : ((new .unbounded).binarize first).2[2]? =
      some (.plain ⟨["[DT,]@JJ]@NP"]⟩ ⟨["NN", "NN"]⟩ 0) := by decide +kernel
  have hlink' : ((new .unbounded).binarize second).2[2]? =
      some (.plain ⟨["[DT,]@JJ]@NP"]⟩ ⟨["JJ", "NN"]⟩ 0) := by decide +kernel
  obtain ⟨-, htells⟩ := names_tell_history hsizes.1 hsizes.2 hlink hlink'
    (fun h => absurd h hclosing) (fun h => absurd h hclosing')
  obtain ⟨hparent, hsymbols⟩ := htells (by decide) rfl
  exact ⟨_, _, hsizes.1, hsizes.2, hlink, hlink', fun h => absurd h hclosing,
    fun h => absurd h hclosing', rfl, hparent, hsymbols⟩

/-- A rule whose first symbol has a comma in it, and a rule whose first two symbols are the parts of
that one. -/
def commaRules : Rule WholeCost × Rule WholeCost :=
  (.plain ⟨["S"]⟩ ⟨["a,b", "c", "d"]⟩ 0, .plain ⟨["S"]⟩ ⟨["a", "b", "c", "e"]⟩ 0)

/-- With commas in symbols that a treebank can hold, what is introduced does not tell the symbols
taken before: `[a,b]@S` stands for one symbol and for two. -/
theorem not_names_tell_history :
    ¬ ∀ (first second : Rule WholeCost), 2 < first.rhs.size → 2 < second.rhs.size →
      first.lhs.size = 1 → second.lhs.size = 1 →
      (∀ symbol ∈ first.lhs.symbols ++ first.rhs.symbols, Tree.IsAtom symbol) →
      (∀ symbol ∈ second.lhs.symbols ++ second.rhs.symbols, Tree.IsAtom symbol) →
      ∀ (place place' : Nat) (link link' : Rule WholeCost),
        ((new .unbounded).binarize first).2[place + 1]? = some link →
        ((new .unbounded).binarize second).2[place' + 1]? = some link' →
        link.lhs = link'.lhs →
        first.lhs.text = second.lhs.text ∧
          first.rhs.symbols.take (place + 1) = second.rhs.symbols.take (place' + 1) := by
  intro h
  obtain ⟨-, hsymbols⟩ := h commaRules.1 commaRules.2 (by decide) (by decide) rfl rfl
    (by decide) (by decide) 0 1 (.plain ⟨["[a,b]@S"]⟩ ⟨["c", "d"]⟩ 0)
    (.plain ⟨["[a,b]@S"]⟩ ⟨["c", "e"]⟩ 0) (by decide +kernel) (by decide +kernel) rfl
  exact absurd hsymbols (by decide)

end Constituency.Binarizer
