import Constituency.Decimal.Numeral
import Constituency.Decimal.Positional
import Constituency.Proofs.Text.Words

/-!
# The text of a double

Whatever a double is, its text is a word (`isWord_text`): digits with at most a point, a sign or
letters. Whether the double is read back from it can be decided for each (`ReadsBack`); there is one
double that is not a number, which is read back from its text like any other.
-/

namespace Constituency.Decimal

open Text (IsWord isBlank)

/-- A digit is no blank. -/
theorem isBlank_of_isDigit {c : Char} (h : c.isDigit = true) : isBlank c = false := by
  rw [Char.isDigit, Bool.and_eq_true, decide_eq_true_eq, decide_eq_true_eq] at h
  have hlow : 48 ≤ c.toNat := h.1
  have hhigh : c.toNat ≤ 57 := h.2
  simp only [isBlank, Bool.or_eq_false_iff, Bool.and_eq_false_iff, decide_eq_false_iff_not,
    beq_eq_false_iff_ne]
  omega

/-- The digits of a number are no blanks. -/
theorem isBlank_of_mem_toString {n : Nat} {c : Char} (h : c ∈ (toString n).toList) :
    isBlank c = false := by
  have hmem : c ∈ Nat.toDigits 10 n := by simpa using h
  exact isBlank_of_isDigit (Nat.isDigit_of_mem_toDigits (by decide) (by decide) hmem)

/-- A number has digits. -/
theorem toString_ne_nil (n : Nat) : (toString n).toList ≠ [] := by
  have hdigits : (toString n).toList = Nat.toDigits 10 n := by simp
  rw [hdigits]
  exact Nat.toDigits_ne_nil

/-- A decimal in positional notation is a word. -/
theorem Scaled.isWord_text (d : Scaled) : IsWord d.text := by
  have hzero : isBlank '0' = false := by decide
  have hpoint : isBlank '.' = false := by decide
  have hzeros : ∀ count : Nat, ∀ c ∈ List.replicate count '0', isBlank c = false :=
    fun count c hc => List.eq_of_mem_replicate hc ▸ hzero
  have hwhole : ∀ c ∈ (toString d.digits).toList ++ List.replicate d.exponent.toNat '0',
      isBlank c = false := by
    intro c hc
    rcases List.mem_append.1 hc with hc | hc
    · exact isBlank_of_mem_toString hc
    · exact hzeros _ c hc
  unfold Scaled.text
  refine .ofList ?_ fun c hc => ?_
  · split
    · exact List.append_ne_nil_of_left_ne_nil (toString_ne_nil _) _
    · split
      · exact List.append_ne_nil_of_right_ne_nil _ (List.cons_ne_nil _ _)
      · exact List.append_ne_nil_of_left_ne_nil (List.cons_ne_nil _ _) _
  · split at hc
    · exact hwhole c hc
    · split at hc
      · rcases List.mem_append.1 hc with hc | hc
        · exact hwhole c (List.mem_of_mem_take hc)
        · rcases List.mem_cons.1 hc with rfl | hc
          · exact hpoint
          · exact hwhole c (List.mem_of_mem_drop hc)
      · rcases List.mem_append.1 hc with hc | hc
        · rcases List.mem_cons.1 hc with rfl | hc
          · exact hzero
          · rcases List.mem_cons.1 hc with rfl | hc
            · exact hpoint
            · exact hzeros _ c hc
        · exact isBlank_of_mem_toString hc

/-- The text of a double without its sign is a word. -/
theorem isWord_magnitudeText (bits : Nat) : IsWord (magnitudeText bits) := by
  unfold magnitudeText
  split
  · decide
  · split
    · decide
    · exact Scaled.isWord_text _

/-- The text of a double is a word. -/
theorem isWord_text (x : Float) : IsWord (text x) := by
  unfold text
  dsimp only
  split
  · decide
  · split
    · exact isWord_magnitudeText _
    · have hword := isWord_magnitudeText (x.toBits.toNat % Nat.pow 2 63)
      refine ⟨?_, fun c hc => ?_⟩
      · rw [String.toList_append]
        exact List.append_ne_nil_of_right_ne_nil _ hword.ne_nil
      · rw [String.toList_append, List.mem_append] at hc
        rcases hc with hc | hc
        · obtain rfl : c = '-' := by simpa using hc
          decide
        · exact hword.plain c hc

/-- A double is read back from its text. -/
def ReadsBack (x : Float) : Prop := read (text x) = .ok x

instance (x : Float) : Decidable (ReadsBack x) :=
  decidable_of_iff ((read (text x)).toOption = some x) <| by
    unfold ReadsBack
    cases read (text x) <;> simp [Except.toOption]

end Constituency.Decimal
