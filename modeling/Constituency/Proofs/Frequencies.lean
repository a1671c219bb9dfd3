import Constituency.Proofs.Cost
import Constituency.Proofs.Grammar.Shares
import Constituency.Proofs.Training

/-!
# Relative frequencies of productions

Trained without a bound, a grammar has lost nothing of the frequencies of the treebank: the shares
of the rules of a chain multiply to the share of the whole production among the nodes of its label
(`prod_share_chain`).

No two rules of a chain rewrite the same symbol, so each rule of a grammar is counted once for every
production whose chain has it (`countP_pieces`). The symbol introduced for some symbols is rewritten
in the chains of just those productions that go on after them with two symbols or more, and they are
also the ones whose chains introduce it. Hence the count of a rule that introduces a symbol is the
total of that symbol, and the product of the shares telescopes (`prod_share_links`): what remains is
the count of the last rule, which is that of the production, over the total of the parent.
-/

namespace Constituency

open Markovization Text

/-- If no part has more than one member that passes a test, as many members pass it as there are
parts with one. -/
theorem countP_flatMap_of_le_one {α β : Type} {f : α → List β} {p : β → Bool} {xs : List α}
    (h : ∀ x ∈ xs, (f x).countP p ≤ 1) :
    (xs.flatMap f).countP p = xs.countP fun x => (f x).any p := by
  induction xs with
  | nil => rfl
  | cons x xs ih =>
    have hfirst : (f x).countP p = if (f x).any p then 1 else 0 := by
      have hle := h x List.mem_cons_self
      have hpos : 0 < (f x).countP p ↔ (f x).any p = true := by
        rw [List.countP_pos_iff, List.any_eq_true]
      split
      · have := hpos.2 ‹_›
        omega
      · have := mt hpos.1 ‹_›
        omega
    rw [List.flatMap_cons, List.countP_append, List.countP_cons, hfirst,
      ih fun y hy => h y (List.mem_cons_of_mem x hy), Nat.add_comm]

variable {κ : Type} [Cost κ]

namespace Rule.Legible

variable {rule : Rule κ} {parent : String} {before : List String}

/-- The chain of a rule rewrites its left-hand symbol, and the symbol introduced for some symbols if
the rule goes on after them with two symbols or more. -/
theorem exists_rewriting_iff (h : rule.Legible) (hparent : isMarked parent = false)
    (hclear : ∀ s ∈ before, Clear s) :
    (∃ piece ∈ unbounded.pieces rule, piece.lhs.text = rewritten parent before) ↔
      rule.lhs.text = parent ∧
        (before = [] ∨ ∃ after, rule.rhs.symbols = before ++ after ∧ 2 ≤ after.length) := by
  constructor
  · rintro ⟨piece, hpiece, htext⟩
    by_cases hsize : 2 < rule.rhs.size
    · obtain ⟨before', taken, after, hsplit, hne, hproduction⟩ :=
        (h.mem_map_pieces hsize).1 (List.mem_map_of_mem hpiece)
      have hclear' : ∀ s ∈ before', Clear s := fun s hs =>
        h.clear_of_size (Nat.le_of_lt hsize) s (hsplit ▸ List.mem_append_left _ hs)
      have hrewritten : rewritten rule.lhs.text before' = rewritten parent before :=
        (congrArg Prod.fst hproduction).symm.trans htext
      obtain ⟨hlhs, rfl⟩ := rewritten_inj h.parent hparent hclear' hclear hrewritten
      refine ⟨hlhs, Or.inr ⟨taken :: after, hsplit, ?_⟩⟩
      exact Nat.succ_le_succ (List.length_pos_iff.2 hne)
    · rw [pieces_of_size_le (Nat.le_of_not_lt hsize)] at hpiece
      obtain rfl : rule = piece := (List.mem_singleton.1 hpiece).symm
      obtain rfl : before = [] := eq_nil_of_isMarked_rewritten (htext ▸ h.parent)
      exact ⟨htext, Or.inl rfl⟩
  · rintro ⟨rfl, hafter⟩
    by_cases hsize : 2 < rule.rhs.size
    · -- There is a symbol to be taken here, and others after it.
      obtain ⟨after, hsplit, hlength⟩ :
          ∃ after, rule.rhs.symbols = before ++ after ∧ 2 ≤ after.length := by
        rcases hafter with rfl | hafter
        · exact ⟨rule.rhs.symbols, rfl, Nat.le_of_lt hsize⟩
        · exact hafter
      obtain ⟨taken, rest, rfl⟩ := List.exists_cons_of_length_pos (Nat.zero_lt_of_lt hlength)
      have hne : rest ≠ [] :=
        List.ne_nil_of_length_pos (Nat.lt_of_succ_le (Nat.le_of_succ_le_succ hlength))
      obtain ⟨piece, hpiece, hproduction⟩ := List.mem_map.1
        ((h.mem_map_pieces hsize).2 ⟨before, taken, rest, hsplit, hne, rfl⟩)
      exact ⟨piece, hpiece, congrArg Prod.fst hproduction⟩
    · have hbefore : before = [] := by
        rcases hafter with hnil | ⟨after, hsplit, hlength⟩
        · exact hnil
        · have hlength' := congrArg List.length hsplit
          rw [List.length_append] at hlength'
          have hnil : before.length = 0 := by
            unfold Side.size at hsize
            omega
          exact List.length_eq_zero_iff.1 hnil
      rw [pieces_of_size_le (Nat.le_of_not_lt hsize), hbefore]
      exact ⟨rule, List.mem_singleton_self rule, rfl⟩

omit [Cost κ] in
/-- The production of a legible rule is no step of a longer right-hand side. -/
theorem production_ne_step (h : rule.Legible) {symbol : String} {after : List String}
    (hsize : 2 < (before ++ symbol :: after).length) :
    rule.production ≠ step parent before symbol after := by
  intro hproduction
  obtain ⟨hlhs, hsymbols⟩ := Prod.mk.inj hproduction
  have htwo : rule.rhs.size = 2 := by rw [Side.size, hsymbols]; rfl
  -- The step is the first one, so it leaves several symbols and introduces one for them.
  obtain rfl : before = [] := eq_nil_of_isMarked_rewritten (hlhs ▸ h.parent)
  obtain ⟨next, last, rest, rfl⟩ : ∃ next last rest, after = next :: last :: rest := by
    rcases after with _ | ⟨next, _ | ⟨last, rest⟩⟩
    · exact absurd hsize (by simp)
    · exact absurd hsize (by simp)
    · exact ⟨next, last, rest, rfl⟩
  have hmem : introduced [symbol] parent ∈ rule.rhs.symbols := by
    rw [hsymbols]
    exact List.mem_cons_of_mem _ List.mem_cons_self
  have hmark := (h.clear_of_size htwo.ge _ hmem).isMarked
  rw [isMarked_introduced] at hmark
  exact Bool.noConfusion hmark

/-- The chain of a rule takes a symbol between others if the rule has it after the same symbols,
and what comes after it looks alike. -/
theorem exists_step_iff (h : rule.Legible) (hparent : isMarked parent = false) {symbol : String}
    {after : List String} (hclear : ∀ s ∈ before ++ symbol :: after, Clear s) (hne : after ≠ [])
    (hsize : 2 < (before ++ symbol :: after).length) :
    (∃ piece ∈ unbounded.pieces rule, piece.production = step parent before symbol after) ↔
      rule.lhs.text = parent ∧
        ∃ after', rule.rhs.symbols = before ++ symbol :: after' ∧ Alike after after' := by
  constructor
  · rintro ⟨piece, hpiece, hproduction⟩
    by_cases hrule : 2 < rule.rhs.size
    · obtain ⟨before', taken, after', hsplit, hne', hstep⟩ :=
        (h.mem_map_pieces hrule).1 (List.mem_map_of_mem hpiece)
      have hclear' : ∀ s ∈ before' ++ taken :: after', Clear s :=
        hsplit ▸ h.clear_of_size (Nat.le_of_lt hrule)
      obtain ⟨hlhs, rfl, rfl, halike⟩ := step_inj hparent h.parent hclear hclear' hne hne'
        (hproduction.symm.trans hstep)
      exact ⟨hlhs.symm, after', hsplit, halike⟩
    · rw [pieces_of_size_le (Nat.le_of_not_lt hrule)] at hpiece
      obtain rfl : rule = piece := (List.mem_singleton.1 hpiece).symm
      exact absurd hproduction (h.production_ne_step hsize)
  · rintro ⟨rfl, after', hsplit, halike⟩
    have hrule : 2 < rule.rhs.size := by
      rw [Side.size, hsplit]
      simp only [List.length_append, List.length_cons] at hsize ⊢
      rcases halike with ⟨-, rfl⟩ | ⟨-, htwo⟩ <;> omega
    obtain ⟨piece, hpiece, hproduction⟩ := List.mem_map.1
      ((h.mem_map_pieces hrule).2 ⟨before, symbol, after', hsplit, halike.ne_nil, rfl⟩)
    exact ⟨piece, hpiece, hproduction.trans (halike.step_eq _ _ _).symm⟩

end Rule.Legible

/-! ## Counting pieces -/

namespace Grammar

variable {rules : List (Rule κ)} {parent : String} {before : List String}

/-- The pieces of legible rules are proper. -/
theorem proper_pieces (hrules : ∀ rule ∈ rules, rule.Legible) {piece : Rule κ}
    (h : piece ∈ rules.flatMap unbounded.pieces) : piece.Proper :=
  proper_of_mem_flatMap_pieces (fun rule hr => (hrules rule hr).toProper) h

/-- Pieces with the same symbol on the left are counted once for each rule that has one. -/
theorem countP_pieces (hrules : ∀ rule ∈ rules, rule.Legible) {p : Rule κ → Bool} {label : String}
    (hp : ∀ piece : Rule κ, p piece = true → piece.lhs.text = label) :
    (rules.flatMap unbounded.pieces).countP p =
      rules.countP fun rule => (unbounded.pieces rule).any p := by
  refine countP_flatMap_of_le_one fun rule hr => ?_
  calc (unbounded.pieces rule).countP p
      ≤ (unbounded.pieces rule).countP (·.lhs.text == label) :=
        List.countP_mono_left fun piece _ hpiece => beq_iff_eq.2 (hp piece hpiece)
    _ = ((unbounded.pieces rule).map (·.lhs.text)).count label := by
        rw [List.count, List.countP_map]
        rfl
    _ ≤ 1 := List.nodup_iff_count_le_one.1 (hrules rule hr).nodup_map_pieces label

/-- The total of an unmarked symbol is the number of the rules for it. -/
theorem countP_parent (hrules : ∀ rule ∈ rules, rule.Legible) (hparent : isMarked parent = false) :
    (rules.flatMap unbounded.pieces).countP (·.lhs.text == parent) =
      rules.countP (·.lhs.text == parent) := by
  rw [countP_pieces hrules fun piece hpiece => beq_iff_eq.1 hpiece]
  refine List.countP_congr fun rule hr => ?_
  have hiff := (hrules rule hr).exists_rewriting_iff hparent (List.forall_mem_nil Clear)
  simp only [List.any_eq_true, beq_iff_eq]
  exact hiff.trans ⟨fun h => h.1, fun h => ⟨h, Or.inl rfl⟩⟩

/-- The rules of a chain that take a certain symbol between others, counted by their productions. -/
theorem countP_key (hrules : ∀ rule ∈ rules, rule.Legible) {symbol : String} {after : List String}
    (hplain : (stepRule parent before symbol after : Rule κ).Plain) :
    (rules.flatMap unbounded.pieces).countP
        (·.key == (stepRule parent before symbol after : Rule κ).key) =
      rules.countP fun rule =>
        (unbounded.pieces rule).any (·.production == step parent before symbol after) := by
  have hkey : ∀ piece ∈ rules.flatMap (unbounded.pieces (κ := κ)),
      (piece.key == (stepRule parent before symbol after : Rule κ).key) =
        (piece.production == step parent before symbol after) := by
    intro piece hpiece
    rw [Bool.eq_iff_iff, beq_iff_eq, beq_iff_eq,
      (proper_pieces hrules hpiece).toPlain.key_eq_iff hplain, production_stepRule]
  rw [List.countP_congr fun piece hpiece => by rw [hkey piece hpiece]]
  exact countP_pieces hrules fun piece hpiece => congrArg Prod.fst (beq_iff_eq.1 hpiece)

/-- A rule that introduces a symbol is counted as often as the symbol is rewritten. -/
theorem countP_introducing (hrules : ∀ rule ∈ rules, rule.Legible)
    (hparent : isMarked parent = false) {symbol : String} {after : List String}
    (hclear : ∀ s ∈ before ++ symbol :: after, Clear s) (hafter : 2 ≤ after.length)
    (hplain : (stepRule parent before symbol after : Rule κ).Plain) :
    (rules.flatMap unbounded.pieces).countP
        (·.key == (stepRule parent before symbol after : Rule κ).key) =
      (rules.flatMap unbounded.pieces).countP
        (·.lhs.text == rewritten parent (before ++ [symbol])) := by
  have hne : after ≠ [] := List.ne_nil_of_length_pos (Nat.zero_lt_of_lt hafter)
  have hsize : 2 < (before ++ symbol :: after).length := by
    rw [List.length_append, List.length_cons]
    omega
  have hbefore : ∀ s ∈ before ++ [symbol], Clear s := fun s hs => by
    rw [List.append_cons] at hclear
    exact hclear s (List.mem_append_left _ hs)
  rw [countP_key hrules hplain, countP_pieces hrules fun piece hpiece => beq_iff_eq.1 hpiece]
  refine List.countP_congr fun rule hr => ?_
  simp only [List.any_eq_true, beq_iff_eq]
  rw [(hrules rule hr).exists_step_iff hparent hclear hne hsize,
    (hrules rule hr).exists_rewriting_iff hparent hbefore]
  -- Either way the rule has two symbols or more after the one that is taken.
  refine and_congr_right fun _ => ⟨?_, ?_⟩
  · rintro ⟨after', hsplit, ⟨hone, -⟩ | ⟨-, htwo⟩⟩
    · omega
    · exact Or.inr ⟨after', hsplit.trans (List.append_cons _ _ _), htwo⟩
  · rintro (hnil | ⟨after', hsplit, htwo⟩)
    · exact absurd hnil (by simp)
    · exact ⟨after', hsplit.trans (List.append_cons _ _ _).symm, Or.inr ⟨hafter, htwo⟩⟩

/-- The last rule of a chain is counted as often as the production of the chain. -/
theorem countP_last (hrules : ∀ rule ∈ rules, rule.Legible) (hparent : isMarked parent = false)
    {symbol last : String} (hclear : ∀ s ∈ before ++ [symbol, last], Clear s) (hne : before ≠ [])
    (hplain : (stepRule parent before symbol [last] : Rule κ).Plain) :
    (rules.flatMap unbounded.pieces).countP
        (·.key == (stepRule parent before symbol [last] : Rule κ).key) =
      rules.countP (·.production == (parent, before ++ [symbol, last])) := by
  have hsize : 2 < (before ++ [symbol, last]).length := by
    have hpos := List.length_pos_iff.2 hne
    rw [List.length_append, List.length_cons, List.length_singleton]
    omega
  rw [countP_key hrules hplain]
  refine List.countP_congr fun rule hr => ?_
  simp only [List.any_eq_true, beq_iff_eq]
  rw [(hrules rule hr).exists_step_iff hparent hclear (List.cons_ne_nil _ _) hsize]
  constructor
  · rintro ⟨hlhs, after', hsplit, ⟨-, rfl⟩ | ⟨htwo, -⟩⟩
    · exact Prod.ext hlhs hsplit
    · exact absurd htwo (by simp)
  · intro hproduction
    obtain ⟨hlhs, hsplit⟩ := Prod.mk.inj hproduction
    exact ⟨hlhs, [last], hsplit, Or.inl ⟨rfl, rfl⟩⟩

/-! ## The product of the shares -/

/-- The shares of the rest of a chain multiply to the share of the production in what the first of
its rules rewrites. -/
theorem prod_share_links (hrules : ∀ rule ∈ rules, rule.Legible) (hparent : isMarked parent = false)
    {symbol : String} {rest : List String} (hclear : ∀ s ∈ before ++ symbol :: rest, Clear s)
    (hne : rest ≠ []) (hsize : 2 < (before ++ symbol :: rest).length)
    (hplain : ∀ link ∈
      unbounded.links parent (.single (rewritten parent before)) before symbol rest,
      (link : Rule κ).Plain)
    (hoccurs : ∃ rule ∈ rules, rule.production = (parent, before ++ symbol :: rest)) :
    ((unbounded.links parent (.single (rewritten parent before)) before symbol rest).map
        (empty.countAll (rules.flatMap unbounded.pieces)).share).prod =
      (rules.countP (·.production == (parent, before ++ symbol :: rest)) : ℚ) /
        (rules.flatMap unbounded.pieces).countP (·.lhs.text == rewritten parent before) := by
  induction rest generalizing before symbol with
  | nil => exact absurd rfl hne
  | cons next rest ih =>
    rw [links_unbounded] at hplain ⊢
    have hfirst := hplain _ List.mem_cons_self
    have hshare : (empty.countAll (rules.flatMap unbounded.pieces)).share
          (stepRule parent before symbol (next :: rest)) =
        ((rules.flatMap unbounded.pieces).countP (·.key ==
          (stepRule parent before symbol (next :: rest) : Rule κ).key) : ℚ) /
        (rules.flatMap unbounded.pieces).countP (·.lhs.text == rewritten parent before) := by
      rw [share, countOf_countAll, totalOf_countAll, stepRule, Rule.plain, Side.text_single]
    rw [List.map_cons, List.prod_cons, hshare]
    cases rest with
    | nil =>
      have hbefore : before ≠ [] := by
        rintro rfl
        exact absurd hsize (by simp)
      rw [countP_last hrules hparent hclear hbefore hfirst]
      exact mul_one _
    | cons last rest =>
      rw [countP_introducing hrules hparent hclear (Nat.le_add_left 2 _) hfirst]
      have htaken : before ++ symbol :: next :: last :: rest =
          (before ++ [symbol]) ++ next :: last :: rest := List.append_cons _ _ _
      rw [htaken] at hclear hsize hoccurs ⊢
      rw [ih hclear (List.cons_ne_nil _ _) hsize
        (fun link hlink => hplain link (List.mem_cons_of_mem _ hlink)) hoccurs]
      -- The total of the symbol introduced is not zero, since the production occurs.
      have hne : ((rules.flatMap unbounded.pieces).countP
          (·.lhs.text == rewritten parent (before ++ [symbol])) : ℚ) ≠ 0 := by
        obtain ⟨rule, hr, hproduction⟩ := hoccurs
        obtain ⟨hlhs, hsymbols⟩ := Prod.mk.inj hproduction
        obtain ⟨piece, hpiece, htext⟩ := ((hrules rule hr).exists_rewriting_iff hparent
          fun s hs => hclear s (List.mem_append_left _ hs)).2
            ⟨hlhs, Or.inr ⟨next :: last :: rest, hsymbols, Nat.le_add_left 2 _⟩⟩
        have hpos : 0 < (rules.flatMap unbounded.pieces).countP
            (·.lhs.text == rewritten parent (before ++ [symbol])) :=
          List.countP_pos_iff.2 ⟨piece, List.mem_flatMap.2 ⟨rule, hr, hpiece⟩, beq_iff_eq.2 htext⟩
        exact_mod_cast hpos.ne'
      rw [mul_comm, div_mul_div_cancel₀ hne]

/-- The shares of the pieces of a rule of more than two symbols that is counted multiply to the
share of its production among the rules for its left-hand side. -/
theorem prod_share_pieces (hrules : ∀ rule ∈ rules, rule.Legible) {rule : Rule κ}
    (hrule : rule.Legible) (hsize : 2 < rule.rhs.size)
    (hoccurs : ∃ other ∈ rules, other.production = rule.production) :
    ((unbounded.pieces rule).map
        (empty.countAll (rules.flatMap unbounded.pieces)).share).prod =
      (rules.countP (·.production == rule.production) : ℚ) /
        rules.countP (·.lhs.text == rule.lhs.text) := by
  obtain ⟨symbol, rest, hrhs, hpieces⟩ := hrule.exists_chain_eq hsize
  have hproduction : rule.production = (rule.lhs.text, [] ++ symbol :: rest) :=
    congrArg (Prod.mk _) hrhs
  have hlength : (symbol :: rest).length = rule.rhs.size := by rw [Side.size, hrhs]
  have hne : rest ≠ [] := by
    rintro rfl
    rw [List.length_singleton] at hlength
    omega
  have hplain : ∀ link ∈ unbounded.links rule.lhs.text (.single (rewritten rule.lhs.text [])) []
      symbol rest, (link : Rule κ).Plain := by
    intro link hlink
    obtain ⟨piece, hpiece, hlhs, hrhs⟩ := exists_mem_withTop rule.top hlink
    have hproper := (proper_of_mem_pieces hrule.toProper (hpieces ▸ hpiece)).toPlain
    exact ⟨hlhs ▸ hproper.lhs, hrhs ▸ hproper.rhs⟩
  have hclear : ∀ s ∈ symbol :: rest, Clear s := hrhs ▸ hrule.clear_of_size (Nat.le_of_lt hsize)
  rw [hpieces, Rule.Legible.map_withTop _ (fun _ _ => rfl), hproduction,
    prod_share_links hrules hrule.parent hclear hne (hlength ▸ hsize) hplain
      (hproduction ▸ hoccurs),
    rewritten, countP_parent hrules hrule.parent]

/-- The links of a rule that is counted are syntactic rules, priced by their shares. -/
theorem exists_priced_link (hrules : ∀ rule ∈ rules, rule.Legible) {rule : Rule κ}
    (hrule : rule.Legible) (hsize : 2 < rule.rhs.size)
    (hoccurs : ∃ other ∈ rules, other.production = rule.production) {link : Rule κ}
    (h : link ∈ unbounded.pieces rule) :
    ∃ s ∈ (empty.countAll (rules.flatMap unbounded.pieces)).estimate.syntactic,
      s.lhs = link.lhs ∧ s.rhs = link.rhs ∧
        s.cost = Cost.ofShare ((empty.countAll (rules.flatMap unbounded.pieces)).countOf link.key)
          ((empty.countAll (rules.flatMap unbounded.pieces)).totalOf link.lhs.text) := by
  obtain ⟨other, ho, hproduction⟩ := hoccurs
  obtain ⟨hlhs, hrhs⟩ := Prod.mk.inj hproduction
  have hrhs : other.rhs = rule.rhs := congrArg Side.mk hrhs
  have hlhs : other.lhs = rule.lhs := by rw [(hrules other ho).lhs_eq, hrule.lhs_eq, hlhs]
  -- The counted rule has the same chain, but for the mark of the root.
  have hchain : unbounded.pieces other = unbounded.chain other := pieces_of_lt_size (hrhs ▸ hsize)
  rw [pieces_of_lt_size hsize, ← withTop_chain unbounded hlhs hrhs] at h
  obtain ⟨piece, hpiece, hl, hr, -⟩ := exists_of_mem_withTop h
  have hmem : piece ∈ rules.flatMap unbounded.pieces :=
    List.mem_flatMap.2 ⟨other, ho, hchain ▸ hpiece⟩
  have hsyntactic : ∀ r ∈ rules.flatMap unbounded.pieces, r.key = piece.key → r.lexical = false :=
    fun r hr hkey => (isLink_of_mem_chain hpiece).lexical_of_key (proper_pieces hrules hmem)
      (proper_pieces hrules hr) hkey
  obtain ⟨s, hs, hsl, hsr⟩ :=
    exists_mem_syntactic_of_key (fun r hr => (proper_pieces hrules hr).toPlain) hmem hsyntactic
  refine ⟨s, hs, hsl.trans hl.symm, hsr.trans hr.symm, ?_⟩
  have hcost := cost_of_mem_priced (List.mem_filter.1 hs).1
  rwa [Rule.key_eq_of_sides (hsl.trans hl.symm) (hsr.trans hr.symm), hsl.trans hl.symm] at hcost

end Grammar

namespace Training

open Grammar

/-- The rule of a node of a training tree is legible. -/
theorem legible_ruleAt {trees : List Tree} (hlabels : ∀ t ∈ trees, t.AllLabels IsWord)
    (hclear : ∀ t ∈ trees, t.Clear) {u : Tree} (hu : u ∈ nodes trees) (mark : Bool) :
    (u.ruleAt mark : Rule κ).Legible := by
  obtain ⟨hleaf, t, ht, hvalid, hmem⟩ := mem_nodes.1 hu
  have hsub : u.Subtree t := Tree.mem_nodes.1 hmem
  exact Tree.legible_ruleAt ((Tree.shaped_of_validate hvalid).subtree hsub hleaf)
    ((hlabels t ht).subtree hsub) ((hclear t ht).subtree hsub) mark

/-- As many rules are counted, before they are binarized, as there are nodes, whatever is asked of
their productions. -/
theorem countP_productions (trees : List Tree) (p : String × List String → Bool) :
    (productions trees : List (Rule κ)).countP (fun rule => p rule.production) =
      (nodes trees).countP fun u => p u.production := by
  have hmap := congrArg (List.countP p) (map_production_productions (κ := κ) trees)
  rw [List.countP_map, List.countP_map] at hmap
  exact hmap

/-- Trained without a bound, a grammar gives a production of more than two symbols its frequency.
The binarizer divides the production into one rule less than it has symbols, the shares of these
rules multiply to the number of the nodes with that production over the number of all nodes with
that label, and the grammar has the rules at the costs of their shares. -/
theorem prod_share_chain {trees : List Tree} (hlabels : ∀ t ∈ trees, t.AllLabels IsWord)
    (hclear : ∀ t ∈ trees, t.Clear) {u : Tree} (hu : u ∈ nodes trees)
    (hmany : 2 < u.children.length) (mark : Bool) :
    let result : Result κ := train .unbounded trees
    let chain := (result.binarizer.binarize (u.ruleAt mark)).2
    chain.length = u.children.length - 1 ∧
      (chain.map result.grammar.share).prod =
        ((nodes trees).countP (·.production == u.production) : ℚ) /
          (nodes trees).countP (·.label == u.label) ∧
      ∀ link ∈ chain, ∃ rule ∈ result.grammar.syntactic,
        rule.lhs = link.lhs ∧ rule.rhs = link.rhs ∧
          rule.cost = Cost.ofShare (result.grammar.countOf link.key)
            (result.grammar.totalOf link.lhs.text) := by
  intro result chain
  let rules : List (Rule κ) := productions trees
  let rule : Rule κ := u.ruleAt mark
  have hrules : ∀ r ∈ rules, r.Legible := fun r hr => legible_of_mem_productions hlabels hclear hr
  have hrule : rule.Legible := legible_ruleAt hlabels hclear hu mark
  have hlength : rule.rhs.size = u.children.length := List.length_map _
  have hsize : 2 < rule.rhs.size := hlength ▸ hmany
  have hproduction : rule.production = u.production := Tree.production_ruleAt mark u
  have hoccurs : ∃ other ∈ rules, other.production = rule.production := by
    have hmem : u.production ∈ rules.map Rule.production := by
      rw [map_production_productions]
      exact List.mem_map_of_mem hu
    rw [hproduction]
    exact List.mem_map.1 hmem
  obtain ⟨hkeeps, hgrammar⟩ :=
    (Binarizer.keeps_new (κ := κ) .unbounded Rule.Plain).train hlabels
  have hgrammar : result.grammar = (empty.countAll (rules.flatMap unbounded.pieces)).estimate :=
    hgrammar
  have hchain : chain = unbounded.pieces rule := hkeeps.binarize_eq_pieces hrule.toPlain
  refine ⟨?_, ?_, ?_⟩
  · rw [hchain, pieces_of_lt_size hsize, length_chain, hlength]
  · -- Estimation keeps the counts, so shares are those of what has been counted.
    calc (chain.map result.grammar.share).prod
        = ((unbounded.pieces rule).map
            (empty.countAll (rules.flatMap unbounded.pieces)).share).prod := by
          rw [hchain, hgrammar]
          rfl
      _ = (rules.countP (·.production == rule.production) : ℚ) /
            rules.countP (·.lhs.text == rule.lhs.text) :=
          prod_share_pieces hrules hrule hsize hoccurs
      _ = _ := by
          have hnumber := countP_productions (κ := κ) trees (· == u.production)
          have htotal := countP_productions (κ := κ) trees (·.1 == u.label)
          rw [hproduction, show rule.lhs.text = u.label from congrArg Prod.fst hproduction]
          exact congrArg₂ (fun a b : Nat => (a / b : ℚ)) hnumber htotal
  · intro link hlink
    obtain ⟨s, hs, hlhs, hrhs, hcost⟩ :=
      exists_priced_link hrules hrule hsize hoccurs (hchain ▸ hlink)
    rw [hgrammar]
    exact ⟨s, hs, hlhs, hrhs, hcost⟩

/-- A phrase with some adjectives. -/
def dogPhrase (adjectives : List String) : Tree :=
  .node "NP" (.node "DT" [.leaf "the"] ::
    (adjectives.map (fun adjective => .node "JJ" [.leaf adjective]) ++ [.node "NN" [.leaf "dog"]]))

/-- Two phrases with one adjective and a phrase with two. -/
def dogPhrases : List Tree := [dogPhrase ["old"], dogPhrase ["big"], dogPhrase ["big", "old"]]

/-- The phrase with two adjectives is divided twice, and has a third of the occurrences. -/
theorem prod_share_chain_dogPhrases :
    (∀ t ∈ dogPhrases, t.AllLabels IsWord) ∧ (∀ t ∈ dogPhrases, t.Clear) ∧
      dogPhrase ["big", "old"] ∈ nodes dogPhrases ∧
      let result : Result WholeCost := train .unbounded dogPhrases
      let chain := (result.binarizer.binarize ((dogPhrase ["big", "old"]).ruleAt true)).2
      chain.length = 3 ∧ (chain.map result.grammar.share).prod = 1 / 3 := by
  have hlabels : ∀ t ∈ dogPhrases, t.AllLabels IsWord := by decide +kernel
  have hclear : ∀ t ∈ dogPhrases, t.Clear := by decide +kernel
  have hmem : dogPhrase ["big", "old"] ∈ nodes dogPhrases := by decide +kernel
  have hmany : 2 < (dogPhrase ["big", "old"]).children.length := by decide
  obtain ⟨hlength, hprod, -⟩ :=
    prod_share_chain (κ := WholeCost) hlabels hclear hmem hmany true
  have hcount : (nodes dogPhrases).countP
      (·.production == (dogPhrase ["big", "old"]).production) = 1 := by decide +kernel
  have htotal : (nodes dogPhrases).countP (·.label == (dogPhrase ["big", "old"]).label) = 3 := by
    decide +kernel
  rw [hcount, htotal, Nat.cast_one, Nat.cast_ofNat] at hprod
  exact ⟨hlabels, hclear, hmem, hlength, hprod⟩

end Training

end Constituency
