import Constituency.Proofs.Binarization

/-!
# Chains that remember everything

Without a bound, a chain rewrites after some symbols of a right-hand side the symbol that is
introduced for all of them. So there is one rule for each place at which the right-hand side can be
divided into the symbols before, one symbol and the symbols after (`Rule.Legible.mem_map_pieces`).
Among rules that are clear where chains need it (`Rule.Legible`), the symbol that is rewritten tells
the parent and the symbols before (`rewritten_inj`), so no two rules of a chain rewrite the same
symbol (`Rule.Legible.nodup_map_pieces`).
-/

namespace Constituency

namespace Markovization

/-- The symbol that a chain rewrites after some symbols: the parent before the first of them, and
then the symbol introduced for them. -/
def rewritten (parent : String) : (before : List String) → String
  | [] => parent
  | symbol :: before => introduced (symbol :: before) parent

/-- What stands for the symbols that are left after some symbols: a last one for itself, and for
several ones the symbol introduced. -/
def remaining (parent : String) (before : List String) : (after : List String) → String
  | [last] => last
  | _ => introduced before parent

/-- The production that takes one symbol of a right-hand side, between those before and those
after. -/
def step (parent : String) (before : List String) (symbol : String) (after : List String) :
    String × List String :=
  (rewritten parent before, [symbol, remaining parent (before ++ [symbol]) after])

/-- After a symbol has been taken, an introduced symbol is rewritten. -/
theorem rewritten_append_singleton (parent : String) (before : List String) (symbol : String) :
    rewritten parent (before ++ [symbol]) = introduced (before ++ [symbol]) parent := by
  cases before <;> rfl

/-- A symbol without the mark is rewritten before the first symbol only. -/
theorem eq_nil_of_isMarked_rewritten {parent : String} {before : List String}
    (h : isMarked (rewritten parent before) = false) : before = [] := by
  cases before with
  | nil => rfl
  | cons symbol before =>
    rw [rewritten, isMarked_introduced] at h
    exact absurd h nofun

/-- The symbol that is rewritten tells the parent and the symbols before. -/
theorem rewritten_inj {parent parent' : String} {before before' : List String}
    (hparent : isMarked parent = false) (hparent' : isMarked parent' = false)
    (hbefore : ∀ symbol ∈ before, Clear symbol) (hbefore' : ∀ symbol ∈ before', Clear symbol)
    (h : rewritten parent before = rewritten parent' before') :
    parent = parent' ∧ before = before' := by
  -- A parent bears no mark and an introduced symbol does, so they are never the same.
  cases before with
  | nil =>
    have h : parent = rewritten parent' before' := h
    obtain rfl : before' = [] := eq_nil_of_isMarked_rewritten (h ▸ hparent)
    exact ⟨h, rfl⟩
  | cons symbol before =>
    cases before' with
    | nil =>
      have h : rewritten parent (symbol :: before) = parent' := h
      exact absurd (eq_nil_of_isMarked_rewritten (h ▸ hparent')) (List.cons_ne_nil _ _)
    | cons symbol' before' =>
      obtain ⟨hwindow, hp⟩ := introduced_inj hbefore hbefore' (List.cons_ne_nil _ _)
        (List.cons_ne_nil _ _) hparent h
      exact ⟨hp, hwindow⟩

end Markovization

open Markovization

variable {κ : Type} [Cost κ]

namespace Markovization

/-- The rule of that production. -/
def stepRule (parent : String) (before : List String) (symbol : String) (after : List String) :
    Rule κ :=
  .plain (.single (rewritten parent before))
    ⟨[symbol, remaining parent (before ++ [symbol]) after]⟩ 0

/-- The production of the rule. -/
theorem production_stepRule (parent : String) (before : List String) (symbol : String)
    (after : List String) :
    (stepRule parent before symbol after : Rule κ).production =
      step parent before symbol after := by
  simp [stepRule, Rule.production, Rule.plain, Side.text_single, step]

/-- A chain without a bound takes the first symbol and goes on with the next. -/
theorem links_unbounded (parent : String) (before : List String) (symbol next : String)
    (rest : List String) :
    (unbounded.links parent (.single (rewritten parent before)) before symbol (next :: rest) :
        List (Rule κ)) =
      stepRule parent before symbol (next :: rest) ::
        unbounded.links parent (.single (rewritten parent (before ++ [symbol])))
          (before ++ [symbol]) next rest := by
  cases rest with
  | nil => rfl
  | cons last rest =>
    rw [rewritten_append_singleton]
    rfl

/-- The rules of a chain without a bound: one for each symbol but the last. -/
theorem mem_links_unbounded {parent : String} {before : List String} {symbol : String}
    {rest : List String} {link : Rule κ} :
    link ∈ unbounded.links parent (.single (rewritten parent before)) before symbol rest ↔
      ∃ front taken after, symbol :: rest = front ++ taken :: after ∧ after ≠ [] ∧
        link = stepRule parent (before ++ front) taken after := by
  induction rest generalizing before symbol with
  | nil =>
    constructor
    · exact fun h => absurd h List.not_mem_nil
    · rintro ⟨front, taken, after, h, hne, -⟩
      cases front with
      | nil => exact absurd (List.cons.inj h).2.symm hne
      | cons first front => simp at h
  | cons next rest ih =>
    rw [links_unbounded, List.mem_cons, ih]
    constructor
    · rintro (rfl | ⟨front, taken, after, h, hne, rfl⟩)
      · exact ⟨[], symbol, next :: rest, rfl, List.cons_ne_nil _ _, by rw [List.append_nil]⟩
      · refine ⟨symbol :: front, taken, after, congrArg (symbol :: ·) h, hne, ?_⟩
        rw [List.append_assoc, List.singleton_append]
    · rintro ⟨front, taken, after, h, hne, rfl⟩
      cases front with
      | nil =>
        obtain ⟨rfl, rfl⟩ := List.cons.inj h
        exact Or.inl (by rw [List.append_nil])
      | cons first front =>
        obtain ⟨rfl, htail⟩ := List.cons.inj h
        refine Or.inr ⟨front, taken, after, htail, hne, ?_⟩
        rw [List.append_assoc, List.singleton_append]

/-- No two rules of a chain without a bound rewrite the same symbol. -/
theorem nodup_links_unbounded {parent : String} {before : List String} {symbol : String}
    {rest : List String} (hparent : isMarked parent = false)
    (hclear : ∀ s ∈ before ++ symbol :: rest, Clear s) :
    ((unbounded.links parent (.single (rewritten parent before)) before symbol rest :
      List (Rule κ)).map (·.lhs.text)).Nodup := by
  induction rest generalizing before symbol with
  | nil => exact List.nodup_nil
  | cons next rest ih =>
    rw [List.append_cons] at hclear
    rw [links_unbounded, List.map_cons, List.nodup_cons]
    refine ⟨fun hmem => ?_, ih hclear⟩
    -- A later rule has more symbols before it.
    obtain ⟨link, hlink, htext⟩ := List.mem_map.1 hmem
    obtain ⟨front, taken, after, h, -, rfl⟩ := mem_links_unbounded.1 hlink
    rw [h, ← List.append_assoc] at hclear
    have hlonger : rewritten parent (before ++ [symbol] ++ front) = rewritten parent before := by
      simpa [stepRule, Rule.plain, Side.text_single] using htext
    obtain ⟨-, hbefore⟩ := rewritten_inj hparent hparent
      (fun s hs => hclear s (List.mem_append_left _ hs))
      (fun s hs => hclear s (List.mem_append_left _ (List.mem_append_left _
        (List.mem_append_left _ hs)))) hlonger
    have hlength := congrArg List.length hbefore
    simp at hlength

/-- Two rests of a right-hand side look alike to a step: they are the same last symbol, or both have
several symbols. -/
def Alike (after after' : List String) : Prop :=
  after.length = 1 ∧ after = after' ∨ 2 ≤ after.length ∧ 2 ≤ after'.length

/-- A rest that another one looks like is not empty. -/
theorem Alike.ne_nil {after after' : List String} (h : Alike after after') : after' ≠ [] := by
  rcases h with ⟨hone, rfl⟩ | ⟨-, htwo⟩
  · exact List.ne_nil_of_length_pos (by omega)
  · exact List.ne_nil_of_length_pos (by omega)

/-- Steps whose rests look alike are the same. -/
theorem Alike.step_eq {after after' : List String} (h : Alike after after') (parent : String)
    (before : List String) (symbol : String) :
    step parent before symbol after = step parent before symbol after' := by
  rcases h with ⟨-, rfl⟩ | ⟨htwo, htwo'⟩
  · rfl
  · match after, after', htwo, htwo' with
    | _ :: _ :: _, _ :: _ :: _, _, _ => rfl

/-- What a step of a chain takes tells all but the symbols after it, and of these what they look
like. -/
theorem step_inj {parent parent' symbol symbol' : String}
    {before before' after after' : List String} (hparent : isMarked parent = false)
    (hparent' : isMarked parent' = false) (hclear : ∀ s ∈ before ++ symbol :: after, Clear s)
    (hclear' : ∀ s ∈ before' ++ symbol' :: after', Clear s) (hne : after ≠ []) (hne' : after' ≠ [])
    (h : step parent before symbol after = step parent' before' symbol' after') :
    parent = parent' ∧ before = before' ∧ symbol = symbol' ∧ Alike after after' := by
  obtain ⟨hrewritten, hsymbols⟩ := Prod.mk.inj h
  obtain ⟨rfl, rfl⟩ := rewritten_inj hparent hparent'
    (fun s hs => hclear s (List.mem_append_left _ hs))
    (fun s hs => hclear' s (List.mem_append_left _ hs)) hrewritten
  obtain ⟨rfl, hremaining⟩ : symbol = symbol' ∧ _ := by simpa using hsymbols
  refine ⟨rfl, rfl, rfl, ?_⟩
  -- A last symbol is clear, so it is no introduced one.
  have hlast : ∀ {last : String} (window : List String), Clear last →
      last ≠ introduced window parent := by
    rintro last window hl rfl
    exact absurd (hl.isMarked.symm.trans (isMarked_introduced window parent)) nofun
  match after, after', hne, hne', hremaining with
  | [last], [last'], _, _, hremaining => exact Or.inl ⟨rfl, congrArg (List.cons · []) hremaining⟩
  | [last], _ :: _ :: _, _, _, hremaining =>
    exact absurd hremaining (hlast _ (hclear last (by simp)))
  | _ :: _ :: _, [last'], _, _, hremaining =>
    exact absurd hremaining.symm (hlast _ (hclear' last' (by simp)))
  | _ :: _ :: _, _ :: _ :: _, _, _, _ => exact Or.inr ⟨by simp, by simp⟩

end Markovization

/-- A rule like those of the nodes of trees whose categories are clear. -/
structure Rule.Legible (rule : Rule κ) : Prop extends rule.Proper where
  /-- The symbol on the left bears no mark. -/
  parent : isMarked rule.lhs.text = false
  /-- The symbols on the right are clear, unless the rule is lexical. -/
  children : rule.lexical = false → ∀ symbol ∈ rule.rhs.symbols, Clear symbol

namespace Rule.Legible

variable {rule : Rule κ}

omit [Cost κ] in
/-- The symbol on the left. -/
theorem lhs_eq (h : rule.Legible) : rule.lhs = Side.single rule.lhs.text := by
  obtain ⟨label, hlabel⟩ := List.length_eq_one_iff.1 h.single
  have hside : rule.lhs = Side.single label := congrArg Side.mk hlabel
  rw [hside, Side.text_single]

omit [Cost κ] in
/-- If there are several symbols on the right they are clear. -/
theorem clear_of_size (h : rule.Legible) (hsize : 2 ≤ rule.rhs.size) :
    ∀ symbol ∈ rule.rhs.symbols, Clear symbol := by
  have hlexical : rule.lexical = false := by
    cases hmark : rule.lexical with
    | false => rfl
    | true =>
      have hone : rule.rhs.size = 1 := h.lexical hmark
      omega
  exact h.children hlexical

omit [Cost κ] in
/-- The mark of the root is in no production and in no text. -/
theorem map_withTop {α : Type} (f : Rule κ → α)
    (hf : ∀ rule : Rule κ, ∀ top, f { rule with top } = f rule) (top : Bool)
    (chain : List (Rule κ)) : (withTop top chain).map f = chain.map f := by
  cases chain with
  | nil => rfl
  | cons first rest => rw [withTop, List.map_cons, List.map_cons, hf]

/-- The chain of a legible rule, but for the mark of the root. -/
theorem exists_chain_eq (h : rule.Legible) (hsize : 2 < rule.rhs.size) :
    ∃ symbol rest, rule.rhs.symbols = symbol :: rest ∧
      unbounded.pieces rule = withTop rule.top (unbounded.links rule.lhs.text
        (.single (rewritten rule.lhs.text [])) [] symbol rest) := by
  obtain ⟨symbol, rest, hrhs⟩ : ∃ symbol rest, rule.rhs.symbols = symbol :: rest :=
    List.exists_cons_of_length_pos (Nat.zero_lt_of_lt hsize)
  refine ⟨symbol, rest, hrhs, ?_⟩
  rw [pieces_of_lt_size hsize, chain, hrhs, rewritten, ← h.lhs_eq]
  rfl

/-- The productions of the pieces of a legible rule of more than two symbols. -/
theorem mem_map_pieces (h : rule.Legible) (hsize : 2 < rule.rhs.size)
    {p : String × List String} :
    p ∈ (unbounded.pieces rule).map production ↔
      ∃ before taken after, rule.rhs.symbols = before ++ taken :: after ∧ after ≠ [] ∧
        p = step rule.lhs.text before taken after := by
  obtain ⟨symbol, rest, hrhs, hpieces⟩ := h.exists_chain_eq hsize
  rw [hpieces, map_withTop production (fun _ _ => rfl), List.mem_map]
  simp only [mem_links_unbounded, hrhs, List.nil_append]
  constructor
  · rintro ⟨link, ⟨before, taken, after, hsplit, hne, rfl⟩, rfl⟩
    exact ⟨before, taken, after, hsplit, hne, production_stepRule _ _ _ _⟩
  · rintro ⟨before, taken, after, hsplit, hne, rfl⟩
    exact ⟨_, ⟨before, taken, after, hsplit, hne, rfl⟩, production_stepRule _ _ _ _⟩

/-- No two pieces of a legible rule rewrite the same symbol. -/
theorem nodup_map_pieces (h : rule.Legible) :
    ((unbounded.pieces rule).map (·.lhs.text)).Nodup := by
  by_cases hsize : 2 < rule.rhs.size
  · obtain ⟨symbol, rest, hrhs, hpieces⟩ := h.exists_chain_eq hsize
    rw [hpieces, map_withTop (·.lhs.text) (fun _ _ => rfl)]
    refine nodup_links_unbounded h.parent ?_
    rw [List.nil_append, ← hrhs]
    exact h.clear_of_size (Nat.le_of_lt hsize)
  · rw [pieces_of_size_le (Nat.le_of_not_lt hsize)]
    exact List.nodup_singleton _

end Rule.Legible

end Constituency
