import Constituency.Proofs.Tree.Tokens
import Mathlib.Data.List.Infix

/-!
# The balance of parentheses

Parentheses are counted in two places. The scan of a treebank text counts those among its
characters, to find where a tree ends, and the reader of a tree keeps a stack of the nodes that are
open at each of its tokens. Both move between the same levels (`Levels`): a parenthesis that opens
leads one level up, one that closes leads one level down, and nothing may follow on level zero.

Characters that go from one level to another are cut into tokens that do (`Levels.of_cut`), so the
text of a tree whose parentheses balance is neither too short nor too long for the reader
(`read_of_levels`).
-/

namespace Constituency

/-! ## Levels -/

/-- From a level, a list leads to another one: `opening` leads one level up, `closing` one level
down, and everything else stays. Level zero is never left. -/
inductive Levels {α : Type} (opening closing : α) : Nat → List α → Nat → Prop
  /-- At the end, the level is the last one. -/
  | nil (level : Nat) : Levels opening closing level [] level
  /-- One level up. -/
  | opening {level last : Nat} {rest : List α}
      (others : Levels opening closing (level + 2) rest last) :
      Levels opening closing (level + 1) (opening :: rest) last
  /-- One level down. -/
  | closing {level last : Nat} {rest : List α} (others : Levels opening closing level rest last) :
      Levels opening closing (level + 1) (closing :: rest) last
  /-- On the same level. -/
  | other {level last : Nat} {a : α} {rest : List α} (hopening : a ≠ opening)
      (hclosing : a ≠ closing) (others : Levels opening closing (level + 1) rest last) :
      Levels opening closing (level + 1) (a :: rest) last

namespace Levels

section

variable {α : Type} {opening closing : α}

/-- The difference between the levels is that between the numbers of what opens and of what
closes. -/
theorem count_add [DecidableEq α] (hne : opening ≠ closing) {level last : Nat} {chars : List α}
    (h : Levels opening closing level chars last) :
    chars.count closing + last = chars.count opening + level := by
  induction h with
  | nil level => rfl
  | opening _ ih =>
    rw [List.count_cons_self, List.count_cons_of_ne hne]
    omega
  | closing _ ih =>
    rw [List.count_cons_self, List.count_cons_of_ne hne.symm]
    omega
  | other hopening hclosing _ ih =>
    rw [List.count_cons_of_ne hopening, List.count_cons_of_ne hclosing]
    exact ih

/-- What leads from a level to another one begins with what leads to a level above zero, unless it
is all of it. -/
theorem of_isPrefix {level last : Nat} {chars front : List α}
    (h : Levels opening closing level chars last) (hfront : front <+: chars) :
    ∃ middle, Levels opening closing level front middle ∧
      (front = chars ∧ middle = last ∨ 0 < middle) := by
  induction front generalizing level chars with
  | nil =>
    refine ⟨level, .nil level, ?_⟩
    cases h with
    | nil => exact .inl ⟨rfl, rfl⟩
    | opening _ | closing _ | other _ _ _ => exact .inr (Nat.succ_pos _)
  | cons a front ih =>
    obtain ⟨rest, rfl⟩ : ∃ rest, chars = a :: rest := by
      obtain ⟨back, hback⟩ := hfront
      exact ⟨front ++ back, hback.symm⟩
    have hrest : front <+: rest := (List.cons_prefix_cons.1 hfront).2
    cases h with
    | opening others =>
      obtain ⟨middle, hlevels, hmiddle⟩ := ih others hrest
      exact ⟨middle, .opening hlevels, hmiddle.imp_left fun h => ⟨by rw [h.1], h.2⟩⟩
    | closing others =>
      obtain ⟨middle, hlevels, hmiddle⟩ := ih others hrest
      exact ⟨middle, .closing hlevels, hmiddle.imp_left fun h => ⟨by rw [h.1], h.2⟩⟩
    | other hopening hclosing others =>
      obtain ⟨middle, hlevels, hmiddle⟩ := ih others hrest
      exact ⟨middle, .other hopening hclosing hlevels,
        hmiddle.imp_left fun h => ⟨by rw [h.1], h.2⟩⟩

/-- What follows what opens leads on from one level up. -/
theorem of_opening (hne : opening ≠ closing) {level last : Nat} {rest : List α}
    (h : Levels opening closing level (opening :: rest) last) :
    Levels opening closing (level + 1) rest last := by
  cases h with
  | opening others => exact others
  | closing _ => exact absurd rfl hne
  | other hopening _ _ => exact absurd rfl hopening

/-- What follows what closes leads on from one level down. -/
theorem of_closing (hne : opening ≠ closing) {level last : Nat} {rest : List α}
    (h : Levels opening closing (level + 1) (closing :: rest) last) :
    Levels opening closing level rest last := by
  cases h with
  | opening _ => exact absurd rfl hne
  | closing others => exact others
  | other _ hclosing _ => exact absurd rfl hclosing

/-- What follows anything else leads on from the same level. -/
theorem of_other {a : α} (hopening : a ≠ opening) (hclosing : a ≠ closing) {level last : Nat}
    {rest : List α} (h : Levels opening closing level (a :: rest) last) :
    Levels opening closing level rest last := by
  cases h with
  | opening _ => exact absurd rfl hopening
  | closing _ => exact absurd rfl hclosing
  | other _ _ others => exact others

/-- What follows a list that neither opens nor closes anything leads on from the same level. -/
theorem of_append {letters rest : List α} (h : ∀ a ∈ letters, a ≠ opening ∧ a ≠ closing)
    {level last : Nat} (hall : Levels opening closing level (letters ++ rest) last) :
    Levels opening closing level rest last := by
  induction letters with
  | nil => exact hall
  | cons a letters ih =>
    obtain ⟨hopening, hclosing⟩ := h a List.mem_cons_self
    exact ih (fun b hb => h b (List.mem_cons_of_mem a hb)) (hall.of_other hopening hclosing)

/-- On level zero there is nothing. -/
theorem eq_nil_of_zero {chars : List α} {last : Nat} (h : Levels opening closing 0 chars last) :
    chars = [] := by
  cases h
  rfl

/-- From any level above zero, either the beginning of a list leads down to zero, or all of it leads
to a level above zero. -/
theorem exists_of_pos [DecidableEq α] (opening closing : α) (level : Nat) (chars : List α) :
    (∃ body rest, chars = body ++ rest ∧ Levels opening closing (level + 1) body 0) ∨
      ∃ last, Levels opening closing (level + 1) chars (last + 1) := by
  induction chars generalizing level with
  | nil => exact .inr ⟨level, .nil _⟩
  | cons c chars ih =>
    by_cases hopening : c = opening
    · subst hopening
      refine (ih (level + 1)).imp ?_ ?_
      · rintro ⟨body, rest, rfl, hbody⟩
        exact ⟨c :: body, rest, rfl, .opening hbody⟩
      · rintro ⟨last, hlast⟩
        exact ⟨last, .opening hlast⟩
    · by_cases hclosing : c = closing
      · subst hclosing
        match level with
        | 0 => exact .inl ⟨[c], chars, rfl, .closing (.nil 0)⟩
        | level + 1 =>
          refine (ih level).imp ?_ ?_
          · rintro ⟨body, rest, rfl, hbody⟩
            exact ⟨c :: body, rest, rfl, .closing hbody⟩
          · rintro ⟨last, hlast⟩
            exact ⟨last, .closing hlast⟩
      · refine (ih level).imp ?_ ?_
        · rintro ⟨body, rest, rfl, hbody⟩
          exact ⟨c :: body, rest, rfl, .other hopening hclosing hbody⟩
        · rintro ⟨last, hlast⟩
          exact ⟨last, .other hopening hclosing hlast⟩

end

end Levels

/-! ## Balanced characters -/

/-- The parentheses of some characters balance: as many close as open, and nowhere before the end
have more been closed than opened. -/
def Balanced (chars : List Char) : Prop :=
  chars.count ')' = chars.count '(' ∧
    ∀ front, front <+: chars → front.count ')' ≤ front.count '('

/-- A parenthesis that opens, up to where it is closed, balances, and no part of it does that begins
with it and ends earlier. -/
theorem balanced_of_levels {body : List Char} (h : Levels '(' ')' 1 body 0) :
    Balanced ('(' :: body) ∧
      ∀ front, front <+: '(' :: body → front ≠ [] → front ≠ '(' :: body → ¬ Balanced front := by
  have hne : '(' ≠ ')' := by decide
  have hcount : ∀ {front : List Char} {level : Nat}, Levels '(' ')' 1 front level →
      ('(' :: front).count ')' + level = ('(' :: front).count '(' := by
    intro front level hfront
    rw [List.count_cons_of_ne hne, List.count_cons_self]
    exact hfront.count_add hne
  refine ⟨⟨hcount h, fun front hfront => ?_⟩, fun front hfront hsome hproper hbalanced => ?_⟩
  · rcases List.prefix_cons_iff.1 hfront with rfl | ⟨front, rfl, hbody⟩
    · exact Nat.zero_le _
    · obtain ⟨middle, hlevels, -⟩ := h.of_isPrefix hbody
      exact (hcount hlevels).symm ▸ Nat.le_add_right _ _
  · rcases List.prefix_cons_iff.1 hfront with rfl | ⟨front, rfl, hbody⟩
    · exact hsome rfl
    · obtain ⟨middle, hlevels, ⟨rfl, -⟩ | hmiddle⟩ := h.of_isPrefix hbody
      · exact hproper rfl
      -- The parenthesis is still open here, so more have been opened than closed.
      · have hopen := hcount hlevels
        have hbalance := hbalanced.1
        omega

/-! ## Balanced tokens -/

namespace Tree

/-- Characters that lead from one level to another are cut into tokens that do. -/
theorem levels_of_cut {chars : List Char} {ts : List Token} (hcut : Cut chars ts)
    {level last : Nat} (h : Levels '(' ')' level chars last) :
    Levels .opening .closing level ts last := by
  induction hcut generalizing level with
  | nil =>
    cases h
    exact .nil _
  | blank isBlank _ ih => exact ih (h.of_other (ne_of_isBlank isBlank).1 (ne_of_isBlank isBlank).2)
  | opening _ ih =>
    match level with
    | 0 => exact absurd h.eq_nil_of_zero (List.cons_ne_nil _ _)
    | level + 1 => exact .opening (ih (h.of_opening (by decide)))
  | closing _ ih =>
    match level with
    | 0 => exact absurd h.eq_nil_of_zero (List.cons_ne_nil _ _)
    | level + 1 => exact .closing (ih (h.of_closing (by decide)))
  | word atom _ _ ih =>
    match level with
    | 0 => exact absurd (List.append_eq_nil_iff.1 h.eq_nil_of_zero).1 atom.ne_nil
    | level + 1 =>
      refine .other nofun nofun (ih (h.of_append fun c hc => ?_))
      exact ⟨(atom.plain c hc).opening, (atom.plain c hc).closing⟩

/-- A word stays on its level. -/
theorem levels_of_word {word : String} {ts : List Token} {level last : Nat}
    (h : Levels Token.opening .closing level (.word word :: ts) last) :
    Levels Token.opening .closing level ts last :=
  h.of_other (by nofun) (by nofun)

/-- A result that balanced parentheses leave: a tree, or an error about a node without a label or
without children. -/
def ReadOrIncomplete (result : Except ReadError Tree) : Prop :=
  (∃ t, result = .ok t) ∨ (∃ position, result = .error (.missingLabel position)) ∨
    ∃ label, result = .error (.noChildren label)

/-- A node that is closed is a tree, or it is not complete. -/
theorem readOrIncomplete_of_close {inner : OpenNode} {position : Nat} {error : ReadError}
    (h : inner.close position = .error error) : ReadOrIncomplete (.error error) := by
  unfold OpenNode.close at h
  split at h
  · exact absurd h nofun
  · obtain rfl := Except.error.inj h
    exact .inr (.inl ⟨_, rfl⟩)
  · obtain rfl := Except.error.inj h
    exact .inr (.inr ⟨_, rfl⟩)
  · exact absurd h nofun

/-- Tokens that lead from the level of the open nodes down to zero close the outermost node at their
end and not before, so the text is neither too short nor too long. -/
theorem readTokens_of_levels {size : Nat} {nodes : List OpenNode} {placed : List Placed}
    (hne : nodes ≠ [])
    (h : Levels .opening .closing nodes.length (placed.map Placed.token) 0) :
    ReadOrIncomplete (readTokens size nodes placed) := by
  have hparentheses : Token.opening ≠ .closing := by decide
  fun_induction readTokens size nodes placed with
  | case1 nodes =>
    -- There are open nodes, so level zero has not been reached.
    have hlevel := h.count_add hparentheses
    exact absurd (List.eq_nil_of_length_eq_zero (by simpa using hlevel.symm)) hne
  | case2 nodes _ _ label rest ih =>
    exact ih (List.cons_ne_nil _ _) (levels_of_word (h.of_opening hparentheses))
  | case3 nodes _ next rest ih => exact ih (List.cons_ne_nil _ _) (h.of_opening hparentheses)
  | case4 => exact .inr (.inl ⟨_, rfl⟩)
  | case5 => exact absurd rfl hne
  | case6 _ _ _ _ hclose => exact readOrIncomplete_of_close hclose
  | case7 => exact .inl ⟨_, rfl⟩
  | case8 => exact absurd (h.of_closing hparentheses).eq_nil_of_zero (List.cons_ne_nil _ _)
  | case9 _ _ _ _ _ _ hclose => exact readOrIncomplete_of_close hclose
  | case10 inner outer nodes _ rest t _ ih =>
    exact ih (List.cons_ne_nil _ _) (h.of_closing hparentheses)
  | case11 => exact absurd rfl hne
  | case12 inner nodes _ text rest ih => exact ih (List.cons_ne_nil _ _) (levels_of_word h)

/-- A text that is one pair of parentheses with everything between them is read as a tree, or a node
in it has no label or no children. -/
theorem read_of_levels {text : String} {body : List Char} (htext : text.toList = '(' :: body)
    (h : Levels '(' ')' 1 body 0) : ReadOrIncomplete (read text) := by
  have hbody : Levels .opening .closing 1 (tokensOf body) 0 := levels_of_cut (cut_tokensOf body) h
  have htokens : (tokens text).map Placed.token = .opening :: tokensOf body := by
    rw [← tokensOf_opening, ← htext]
    rfl
  unfold read
  obtain ⟨⟨position, _⟩, placed, hplaced, rfl, hrest⟩ := List.map_eq_cons_iff.1 htokens
  rw [hplaced]
  rw [← hrest] at hbody
  -- The first parenthesis opens a node, with a label or without one.
  match placed with
  | ⟨_, .word label⟩ :: rest =>
    show ReadOrIncomplete (readTokens _ [⟨some label, []⟩] rest)
    exact readTokens_of_levels (List.cons_ne_nil _ _) (levels_of_word hbody)
  | ⟨next, .opening⟩ :: rest =>
    show ReadOrIncomplete (readTokens _ [⟨none, []⟩] (⟨next, .opening⟩ :: rest))
    exact readTokens_of_levels (List.cons_ne_nil _ _) hbody
  | ⟨_, .closing⟩ :: _ => exact .inr (.inl ⟨_, rfl⟩)
  | [] => exact .inr (.inl ⟨_, rfl⟩)

end Tree

end Constituency
