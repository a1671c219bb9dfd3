import Constituency.Proofs.Tree.Reader
import Mathlib.Data.List.TakeWhile

/-!
# The tokens of a text

The tokens of a text do not depend on where the text stands, so they can be read off its characters
one after the other (`tokensOf`). They are what the text is cut into by a rule of its own: each
parenthesis is a token, and so is each maximal run of characters that are neither blanks nor
parentheses (`Cut`, `cut_iff`).
-/

namespace Constituency.Tree

/-! ## Tokens without their positions -/

/-- Where a word begins does not matter to it. -/
theorem map_token_placedWord (first second : Nat) (taken : List Char) :
    (placedWord first taken).map Placed.token = (placedWord second taken).map Placed.token := by
  cases taken <;> rfl

/-- Where a text stands does not matter to its tokens. -/
theorem map_token_tokensFrom (chars taken : List Char) (start start' position position' : Nat) :
    (tokensFrom start taken position chars).map Placed.token =
      (tokensFrom start' taken position' chars).map Placed.token := by
  induction chars generalizing taken start start' position position' with
  | nil => exact map_token_placedWord start start' taken
  | cons c rest ih =>
    have hword := map_token_placedWord start start' taken
    have hrest := ih [] (position + c.utf8Size) (position' + c.utf8Size) (position + c.utf8Size)
      (position' + c.utf8Size)
    unfold tokensFrom
    dsimp only
    split
    · rw [List.map_append, List.map_append, List.map_cons, List.map_cons, hword, hrest]
    · split
      · rw [List.map_append, List.map_append, List.map_cons, List.map_cons, hword, hrest]
      · split
        · rw [List.map_append, List.map_append, hword, hrest]
        · exact ih _ _ _ _ _

/-- The tokens of some characters. -/
def tokensOf (chars : List Char) : List Token := (tokensFrom 0 [] 0 chars).map Placed.token

/-- A parenthesis that opens is a token. -/
theorem tokensOf_opening (rest : List Char) :
    tokensOf ('(' :: rest) = .opening :: tokensOf rest := by
  rw [tokensOf, tokensFrom, if_pos rfl]
  exact congrArg (Token.opening :: ·) (map_token_tokensFrom rest [] _ _ _ _)

/-- A parenthesis that closes is a token. -/
theorem tokensOf_closing (rest : List Char) :
    tokensOf (')' :: rest) = .closing :: tokensOf rest := by
  rw [tokensOf, tokensFrom, if_neg (by decide), if_pos rfl]
  exact congrArg (Token.closing :: ·) (map_token_tokensFrom rest [] _ _ _ _)

/-- A blank is no parenthesis. -/
theorem ne_of_isBlank {c : Char} (h : Text.isBlank c = true) : c ≠ '(' ∧ c ≠ ')' := by
  constructor
  · rintro rfl
    exact absurd h (by decide)
  · rintro rfl
    exact absurd h (by decide)

/-- What does not go on a word is a parenthesis or a blank. -/
theorem eq_or_isBlank_of_not_isPlain {c : Char} (h : ¬ IsPlain c) :
    c = '(' ∨ c = ')' ∨ Text.isBlank c = true := by
  by_contra hnone
  rw [not_or, not_or] at hnone
  exact h ⟨Bool.eq_false_iff.2 hnone.2.2, hnone.1, hnone.2.1⟩

/-- A blank is no token. -/
theorem tokensOf_blank {c : Char} (h : Text.isBlank c = true) (rest : List Char) :
    tokensOf (c :: rest) = tokensOf rest := by
  obtain ⟨hopening, hclosing⟩ := ne_of_isBlank h
  rw [tokensOf, tokensFrom, if_neg hopening, if_neg hclosing, if_pos h]
  exact map_token_tokensFrom rest [] _ _ _ _

/-- A word that has been begun ends before these characters: there are none, or the first of them is
a blank or a parenthesis. -/
def EndsWord : List Char → Prop
  | [] => True
  | c :: _ => ¬ IsPlain c

/-- The tokens after characters that go on a word which has been begun. -/
theorem map_token_tokensFrom_append {letters : List Char} (h : ∀ c ∈ letters, IsPlain c)
    (taken rest : List Char) (start position : Nat) :
    (tokensFrom start taken position (letters ++ rest)).map Placed.token =
      (tokensFrom start (letters.reverse ++ taken) position rest).map Placed.token := by
  induction letters generalizing taken position with
  | nil => rfl
  | cons c letters ih =>
    have hc := h c List.mem_cons_self
    have hblank : ¬ Text.isBlank c = true := Bool.eq_false_iff.1 hc.blank
    rw [List.cons_append, tokensFrom, if_neg hc.opening, if_neg hc.closing, if_neg hblank,
      ih (fun d hd => h d (List.mem_cons_of_mem c hd)), List.reverse_cons, List.append_assoc]
    exact map_token_tokensFrom rest _ _ _ _ _

/-- The tokens where a word that has been begun ends. -/
theorem map_token_tokensFrom_of_endsWord {rest : List Char} (h : EndsWord rest)
    (taken : List Char) (start position : Nat) :
    (tokensFrom start taken position rest).map Placed.token =
      (placedWord start taken).map Placed.token ++ tokensOf rest := by
  cases rest with
  | nil => rw [tokensFrom, tokensOf, tokensFrom, placedWord, List.map_nil, List.append_nil]
  | cons c rest =>
    have hrest := map_token_tokensFrom rest [] (position + c.utf8Size) 0 (position + c.utf8Size) 0
    rcases eq_or_isBlank_of_not_isPlain h with rfl | rfl | hblank
    · rw [tokensOf_opening, tokensFrom, if_pos rfl, List.map_append, List.map_cons, hrest]
      rfl
    · rw [tokensOf_closing, tokensFrom, if_neg (by decide), if_pos rfl, List.map_append,
        List.map_cons, hrest]
      rfl
    · obtain ⟨hopening, hclosing⟩ := ne_of_isBlank hblank
      rw [tokensOf_blank hblank, tokensFrom, if_neg hopening, if_neg hclosing, if_pos hblank,
        List.map_append, hrest]
      rfl

/-- A word is a token of its own if it ends before what follows. -/
theorem tokensOf_atom {word : String} (h : IsAtom word) {rest : List Char} (hrest : EndsWord rest) :
    tokensOf (word.toList ++ rest) = .word word :: tokensOf rest := by
  have hword : (placedWord 0 word.toList.reverse).map Placed.token = [.word word] := by
    cases hr : word.toList.reverse with
    | nil => exact absurd (List.reverse_eq_nil_iff.1 hr) h.ne_nil
    | cons c taken =>
      show [Token.word (String.ofList (c :: taken).reverse)] = [.word word]
      rw [← hr, List.reverse_reverse, String.ofList_toList]
  rw [tokensOf, map_token_tokensFrom_append h.plain, List.append_nil,
    map_token_tokensFrom_of_endsWord hrest, hword, List.singleton_append]

/-! ## Cutting a text into tokens -/

/-- Characters are cut into tokens: blanks are left out, each parenthesis is a token, and so is each
run of other characters that is not empty and ends where a word ends. -/
inductive Cut : List Char → List Token → Prop
  /-- No characters make no tokens. -/
  | nil : Cut [] []
  /-- A blank is left out. -/
  | blank {c : Char} {rest : List Char} {ts : List Token} (isBlank : Text.isBlank c = true)
      (others : Cut rest ts) : Cut (c :: rest) ts
  /-- A parenthesis that opens. -/
  | opening {rest : List Char} {ts : List Token} (others : Cut rest ts) :
      Cut ('(' :: rest) (.opening :: ts)
  /-- A parenthesis that closes. -/
  | closing {rest : List Char} {ts : List Token} (others : Cut rest ts) :
      Cut (')' :: rest) (.closing :: ts)
  /-- A maximal run of characters that are neither blanks nor parentheses. -/
  | word {word : String} {rest : List Char} {ts : List Token} (atom : IsAtom word)
      (ends : EndsWord rest) (others : Cut rest ts) : Cut (word.toList ++ rest) (.word word :: ts)

/-- What is left after a maximal run of characters that go on a word does not go on with it. -/
theorem endsWord_dropWhile (chars : List Char) :
    EndsWord (chars.dropWhile fun c => decide (IsPlain c)) := by
  cases hrest : chars.dropWhile fun c => decide (IsPlain c) with
  | nil => trivial
  | cons c rest =>
    have hhead := List.head?_dropWhile_not (fun c => decide (IsPlain c)) chars
    rw [hrest] at hhead
    have hplain : ¬ IsPlain c := by simpa using hhead
    exact hplain

/-- From a character that goes on a word, a word goes as far as it can. -/
theorem exists_atom_append {c : Char} (h : IsPlain c) (rest : List Char) :
    ∃ word after, IsAtom word ∧ EndsWord after ∧ word.toList ++ after = c :: rest := by
  refine ⟨String.ofList ((c :: rest).takeWhile fun c => decide (IsPlain c)),
    (c :: rest).dropWhile fun c => decide (IsPlain c), ⟨?_, fun d hd => ?_⟩,
    endsWord_dropWhile (c :: rest), ?_⟩
  · rw [String.toList_ofList, List.takeWhile_cons, if_pos (decide_eq_true h)]
    exact List.cons_ne_nil _ _
  · rw [String.toList_ofList] at hd
    have hplain := List.mem_takeWhile_imp hd
    exact of_decide_eq_true hplain
  · rw [String.toList_ofList, List.takeWhile_append_dropWhile]

/-- Characters are cut into their tokens. -/
theorem cut_tokensOf (chars : List Char) : Cut chars (tokensOf chars) := by
  match chars with
  | [] => exact .nil
  | c :: rest =>
    by_cases hplain : IsPlain c
    · obtain ⟨word, after, hatom, hends, hall⟩ := exists_atom_append hplain rest
      -- A word has a character, so fewer are left after it.
      have hshorter : after.length < (c :: rest).length := by
        rw [← hall, List.length_append]
        exact Nat.lt_add_of_pos_left (List.length_pos_iff.2 hatom.ne_nil)
      rw [← hall, tokensOf_atom hatom hends]
      exact .word hatom hends (cut_tokensOf after)
    · rcases eq_or_isBlank_of_not_isPlain hplain with rfl | rfl | hblank
      · exact tokensOf_opening rest ▸ .opening (cut_tokensOf rest)
      · exact tokensOf_closing rest ▸ .closing (cut_tokensOf rest)
      · exact tokensOf_blank hblank rest ▸ .blank hblank (cut_tokensOf rest)
termination_by chars.length
decreasing_by
  all_goals
    simp only [List.length_cons] at *
    omega

/-- The tokens of characters are the only ones that they can be cut into. -/
theorem cut_iff {chars : List Char} {ts : List Token} : Cut chars ts ↔ tokensOf chars = ts := by
  constructor
  · intro h
    induction h with
    | nil => rfl
    | blank isBlank _ ih => rw [tokensOf_blank isBlank, ih]
    | opening _ ih => rw [tokensOf_opening, ih]
    | closing _ ih => rw [tokensOf_closing, ih]
    | word atom ends _ ih => rw [tokensOf_atom atom ends, ih]
  · rintro rfl
    exact cut_tokensOf chars

end Constituency.Tree
