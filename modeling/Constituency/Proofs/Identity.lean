import Constituency.Proofs.Rule
import Constituency.Proofs.Text.Spacing

/-!
# The identity of sides

A side is identified by its text. That tells the symbols of the sides that are read from texts:
these symbols are words, and words are read back from their text (`same_ofText_iff`).

A side may hold any symbols, though, and its text read back (`reread`) may give another one. What
is read back has the words of the text as its symbols. So it is the same as the side exactly if the
text is single-spaced (`reread_same_iff`), it has the symbols of the side exactly if they are words
(`symbols_reread_eq_iff`), and it is read back as it is from then on (`reread_ofText`).
-/

namespace Constituency.Side

/-- A side read back from its text. -/
def reread (side : Side) : Side := ofText side.text

/-- Sides are the same if their texts are. -/
theorem same_iff {side other : Side} : side.same other = true ↔ side.text = other.text :=
  beq_iff_eq

/-- A text spells the symbols of the side that is read from it. -/
theorem spells_ofText (text : String) : Text.Spells text.toList (ofText text).symbols :=
  Text.spells_iff.2 rfl

/-- The symbols that are read from a text are words. -/
theorem isWord_ofText {text symbol : String} (h : symbol ∈ (ofText text).symbols) :
    Text.IsWord symbol := Text.isWord_of_mem_words h

/-- Sides that are read from texts are the same exactly if they have the same symbols. -/
theorem same_ofText_iff (text other : String) :
    (ofText text).same (ofText other) = true ↔
      (ofText text).symbols = (ofText other).symbols := by
  rw [same_iff]
  constructor
  · intro h
    exact congrArg symbols (text_inj (fun _ => isWord_ofText) (fun _ => isWord_ofText) h)
  · exact congrArg Text.unwords

/-- A side that is read from a text is read back as it is. -/
theorem reread_ofText (text : String) : (ofText text).reread = ofText text :=
  ofText_text fun _ => isWord_ofText

/-- The symbols of a side are read back exactly if they are words. -/
theorem symbols_reread_eq_iff {side : Side} :
    side.reread.symbols = side.symbols ↔ ∀ symbol ∈ side.symbols, Text.IsWord symbol := by
  constructor
  · intro h symbol hs
    rw [← h] at hs
    exact isWord_ofText hs
  · intro h
    exact congrArg symbols (ofText_text h)

/-- A side is the same as what is read back exactly if its text is single-spaced. -/
theorem reread_same_iff {side : Side} :
    side.reread.same side = true ↔ Text.SingleSpaced side.text := by
  rw [same_iff, Text.singleSpaced_iff_unwords_words]
  rfl

/-- On what is read from texts, the identity of sides is that of their symbols. Of any side,
whatever symbols it holds, the words of its text are read back. That is the same side exactly if the
text is its words with single spaces between them, which depends on each symbol by itself; it has
the same symbols exactly if they are words; and its symbols are read back as they are from then on.
-/
theorem identity_faithful :
    (∀ text other : String, (ofText text).same (ofText other) = true ↔
      (ofText text).symbols = (ofText other).symbols) ∧
    ∀ side : Side,
      Text.Spells side.text.toList side.reread.symbols ∧
      (side.reread.same side = true ↔ Text.SingleSpaced side.text) ∧
      (Text.SingleSpaced side.text ↔
        side.symbols = [""] ∨ ∀ symbol ∈ side.symbols, symbol ≠ "" ∧ Text.SingleSpaced symbol) ∧
      (side.reread.symbols = side.symbols ↔ ∀ symbol ∈ side.symbols, Text.IsWord symbol) ∧
      side.reread.reread.symbols = side.reread.symbols := by
  refine ⟨same_ofText_iff, fun side => ⟨spells_ofText side.text, reread_same_iff,
    Text.singleSpaced_unwords_iff, symbols_reread_eq_iff, ?_⟩⟩
  have hreread : side.reread.reread = side.reread := reread_ofText side.text
  rw [hreread]

/-- A symbol of two words is taken for two symbols and an empty symbol for none, which does not show
in the texts; a blank at the end of a symbol does. -/
example : (mk ["NP VP", "PP"]).same (mk ["NP", "VP PP"]) = true ∧
    (mk ["NP VP", "PP"]).reread.same (mk ["NP VP", "PP"]) = true ∧
    (mk [""]).reread.same (mk [""]) = true ∧
    (mk ["NP ", "VP"]).reread.same (mk ["NP ", "VP"]) = false := by decide

end Constituency.Side
