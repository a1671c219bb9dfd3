import Constituency.Proofs.ChainShape
import Constituency.Proofs.Frequencies
import Constituency.Proofs.Grammar.Renaming
import Mathlib.Logic.Equiv.Basic

/-!
# Windows that forget nothing

A window of order `h` holds all the symbols that a rule of at most `h + 2` symbols has a chain
remember, after placeholders where there are fewer (`window_order`). So if the rules of a treebank
are not larger, the chains of this order are those without a bound but for the names of introduced
symbols: the ones are called after the symbols before, the others after the same symbols with the
placeholders. The names with and without placeholders are exchanged by `respell`. It is its own
inverse, so no two introduced symbols of the one grammar become one of the other, and the trained
grammars are the same but for these names (`renamedBy_train`).
-/

namespace Constituency

variable {κ : Type} [Cost κ]

namespace Markovization

/-! ## Names with and without placeholders -/

/-- The symbols and the parent that a name tells, if the symbols are clear; placeholders are left
out. -/
def remembered (name : String) : List String × String :=
  let letters := name.toList.drop 1
  let symbols := ((letters.takeWhile (· != mark)).dropLast.splitOn ',').map String.ofList
  (symbols.filter (· != placeholder), String.ofList ((letters.dropWhile (· != mark)).drop 1))

/-- What the name of an introduced symbol tells. -/
theorem remembered_introduced {window : List String} (hclear : ∀ symbol ∈ window, Clear symbol)
    (hne : window ≠ []) (parent : String) :
    remembered (introduced window parent) = (window.filter (· != placeholder), parent) := by
  have hmark : ∀ c ∈ (",".intercalate window).toList ++ [']'], (c != mark) = true := by
    intro c hc
    rw [bne_iff_ne]
    rintro rfl
    rcases List.mem_append.1 hc with hc | hc
    · rcases Text.exists_of_mem_intercalate hc with hc | ⟨symbol, hs, hc⟩
      · exact absurd hc (by decide)
      · exact (hclear symbol hs).mark hc
    · exact absurd hc (by decide)
  have hletters : (introduced window parent).toList.drop 1 =
      ((",".intercalate window).toList ++ [']']) ++ mark :: parent.toList := by
    rw [toList_introduced]
    simp [mark]
  have hsplit := splitOn_intercalate (fun symbol hs => (hclear symbol hs).comma) hne
  have hread : (window.map String.toList).map String.ofList = window := by
    rw [List.map_map]
    exact (List.map_congr_left fun symbol _ => String.ofList_toList).trans (List.map_id _)
  rw [remembered, hletters]
  simp only [List.takeWhile_append_of_pos hmark, List.dropWhile_append_of_pos hmark,
    List.takeWhile_cons, List.dropWhile_cons, bne_self_eq_false, Bool.false_eq_true, if_false,
    List.append_nil, List.dropLast_concat, hsplit, hread, List.drop_one, List.tail_cons,
    String.ofList_toList]

/-- A row of symbols that a window of order `h` holds in full, and that can be told from the
name. -/
structure Short (h : Nat) (before : List String) : Prop where
  /-- There is a symbol. -/
  ne_nil : before ≠ []
  /-- There are no more symbols than the window holds. -/
  length : before.length ≤ h
  /-- The symbols are clear. -/
  clear : ∀ symbol ∈ before, Clear symbol
  /-- No symbol is a placeholder. -/
  real : ∀ symbol ∈ before, symbol ≠ placeholder

instance (h : Nat) (before : List String) : Decidable (Short h before) :=
  decidable_of_iff (before ≠ [] ∧ before.length ≤ h ∧ (∀ symbol ∈ before, Clear symbol) ∧
      ∀ symbol ∈ before, symbol ≠ placeholder)
    ⟨fun h => ⟨h.1, h.2.1, h.2.2.1, h.2.2.2⟩, fun h => ⟨h.ne_nil, h.length, h.clear, h.real⟩⟩

/-- A window that is not filled holds all symbols, after placeholders. -/
theorem window_order {h : Nat} {before : List String} (hne : before ≠ [])
    (hle : before.length ≤ h) :
    (order h).window before = List.replicate (h - before.length) placeholder ++ before := by
  have hpos := List.length_pos_iff.2 hne
  cases h with
  | zero => omega
  | succ h =>
    have hplaceholders : h - (h + before.length - (h + 1)) = h + 1 - before.length := by omega
    have hsymbols : h + before.length - (h + 1) - h = 0 := by omega
    rw [window, List.rtake, List.length_append, List.length_replicate, List.drop_append,
      List.drop_replicate, List.length_replicate, hplaceholders, hsymbols, List.drop_zero]

namespace Short

variable {h : Nat} {before : List String}

/-- No symbol is left out as a placeholder. -/
theorem filter_eq (hshort : Short h before) : before.filter (· != placeholder) = before :=
  List.filter_eq_self.2 fun symbol hs => bne_iff_ne.2 (hshort.real symbol hs)

/-- The name that a chain without a bound gives tells the symbols and the parent. -/
theorem remembered_unbounded (hshort : Short h before) (parent : String) :
    remembered (unbounded.nameAfter parent before) = (before, parent) := by
  rw [← introduced_window]
  exact (remembered_introduced hshort.clear hshort.ne_nil parent).trans (by rw [hshort.filter_eq])

/-- So does the name that a chain of the order gives. -/
theorem remembered_order (hshort : Short h before) (parent : String) :
    remembered ((order h).nameAfter parent before) = (before, parent) := by
  have hwindow := window_order hshort.ne_nil hshort.length
  have hclear : ∀ symbol ∈ (order h).window before, Clear symbol := by
    intro symbol hs
    rw [hwindow] at hs
    rcases List.mem_append.1 hs with hs | hs
    · rw [List.eq_of_mem_replicate hs]
      decide
    · exact hshort.clear symbol hs
  have hne : (order h).window before ≠ [] := by
    rw [hwindow]
    exact List.append_ne_nil_of_right_ne_nil _ hshort.ne_nil
  rw [← introduced_window, remembered_introduced hclear hne, hwindow, List.filter_append,
    hshort.filter_eq, List.filter_replicate, bne_self_eq_false, if_neg Bool.false_ne_true,
    List.nil_append]

end Short

/-- Exchanges the names that chains without a bound and chains of order `h` give after a short row
of symbols. Every other name stays as it is. -/
def respell (h : Nat) (name : String) : String :=
  let (before, parent) := remembered name
  if Short h before then
    Equiv.swap (unbounded.nameAfter parent before) ((order h).nameAfter parent before) name
  else name

/-- What a chain without a bound introduces after a short row of symbols is called as in a chain of
the order. -/
theorem respell_nameAfter {h : Nat} {before : List String} (hshort : Short h before)
    (parent : String) :
    respell h (unbounded.nameAfter parent before) = (order h).nameAfter parent before := by
  rw [respell, hshort.remembered_unbounded]
  exact (if_pos hshort).trans (Equiv.swap_apply_left _ _)

/-- Introduced symbols bear the mark. -/
theorem isMarked_nameAfter (m : Markovization) (parent : String) (before : List String) :
    isMarked (m.nameAfter parent before) = true := by
  rw [← introduced_window]
  exact isMarked_introduced _ _

/-- A symbol without the mark is not introduced, and stays as it is. -/
theorem respell_of_isMarked {name : String} (h : Nat) (hname : isMarked name = false) :
    respell h name = name := by
  have hne : ∀ (m : Markovization) (parent : String) (before : List String),
      name ≠ m.nameAfter parent before := by
    rintro m parent before rfl
    exact absurd (hname.symm.trans (isMarked_nameAfter m parent before)) nofun
  unfold respell
  dsimp only
  split
  · exact Equiv.swap_apply_of_ne_of_ne (hne _ _ _) (hne _ _ _)
  · rfl

/-- Respelling twice gives the name back. -/
theorem respell_involutive (h : Nat) : Function.Involutive (respell h) := by
  intro name
  rcases hread : remembered name with ⟨before, parent⟩
  by_cases hshort : Short h before
  · let first := unbounded.nameAfter parent before
    let second := (order h).nameAfter parent before
    have hspell : ∀ {other : String}, remembered other = (before, parent) →
        respell h other = Equiv.swap first second other := by
      intro other hother
      rw [respell, hother]
      exact if_pos hshort
    -- The respelled name tells the same symbols and the same parent.
    have hsame : remembered (Equiv.swap first second name) = (before, parent) := by
      rw [Equiv.swap_apply_def]
      split
      · exact hshort.remembered_order parent
      · split
        · exact hshort.remembered_unbounded parent
        · exact hread
    rw [hspell hread, hspell hsame, Equiv.swap_apply_self]
  · have hspell : respell h name = name := by
      rw [respell, hread]
      exact if_neg hshort
    rw [hspell, hspell]

/-! ## Chains -/

/-- The rules of a chain without a bound are those of a chain of the order, respelled, as long as
the window holds all symbols but the last two. -/
theorem map_rename_links {h : Nat} (parent : String) (before : List String) {window : List String}
    {symbol : String} {rest : List String}
    (hwindow : (order h).slide window symbol = (order h).window (before ++ [symbol]))
    (hclear : ∀ s ∈ before ++ symbol :: rest, Clear s)
    (hreal : ∀ s ∈ before ++ symbol :: rest, s ≠ placeholder)
    (hlength : before.length + rest.length ≤ h + 1) :
    (unbounded.links parent (.single (rewritten parent before)) before symbol rest).map
        (Rule.rename (respell h)) =
      ((order h).links parent (.single (respell h (rewritten parent before))) window symbol rest :
        List (Rule κ)) := by
  induction rest generalizing before window symbol with
  | nil => rfl
  | cons next rest ih =>
    have hplain : ∀ lhs first second : String,
        (Rule.plain (.single lhs) ⟨[first, second]⟩ 0 : Rule κ).rename (respell h) =
          Rule.plain (.single (respell h lhs)) ⟨[respell h first, respell h second]⟩ 0 :=
      fun _ _ _ => rfl
    have hstays : ∀ s ∈ before ++ symbol :: next :: rest, respell h s = s := fun s hs =>
      respell_of_isMarked h (hclear s hs).isMarked
    have hsymbol : respell h symbol = symbol := hstays symbol (by simp)
    cases rest with
    | nil =>
      have hnext : respell h next = next := hstays next (by simp)
      rw [links, links, List.map_singleton, hplain, hsymbol, hnext]
    | cons last rest =>
      have htaken : ∀ {s : String} {others : List String}, s ∈ before ++ [symbol] ++ others →
          s ∈ before ++ symbol :: others := by simp
      rw [List.length_cons, List.length_cons] at hlength
      -- What the chain introduces next is called after a short row of symbols.
      have hshort : Short h (before ++ [symbol]) := by
        refine ⟨by simp, ?_, fun s hs => hclear s ?_, fun s hs => hreal s ?_⟩
        · rw [List.length_append, List.length_singleton]
          omega
        · exact htaken (List.mem_append_left _ hs)
        · exact htaken (List.mem_append_left _ hs)
      have hname : respell h (introduced (before ++ [symbol]) parent) =
          introduced ((order h).slide window symbol) parent := by
        rw [hwindow, introduced_window, ← respell_nameAfter hshort, ← introduced_window]
        rfl
      have hslide : (order h).slide ((order h).slide window symbol) next =
          (order h).window (before ++ [symbol] ++ [next]) := by
        rw [hwindow, slide_window _ (by simp)]
      have hrest := ih (before ++ [symbol]) hslide (fun s hs => hclear s (htaken hs))
        (fun s hs => hreal s (htaken hs))
        (by rw [List.length_append, List.length_singleton, List.length_cons]; omega)
      rw [rewritten_append_singleton, hname] at hrest
      rw [links_cons_cons, links_cons_cons, List.map_cons, hplain, hsymbol]
      exact congrArg₂ List.cons (by rw [← hname]; rfl) hrest

omit [Cost κ] in
/-- The rule of a node of a tree is not respelled. -/
theorem rename_of_legible {rule : Rule κ} (hlegible : rule.Legible) (h : Nat) :
    rule.rename (respell h) = rule := by
  have hstays : ∀ {symbols : List String}, (∀ s ∈ symbols, isMarked s = false) →
      symbols.map (respell h) = symbols := fun hs =>
    (List.map_congr_left fun s hmem => respell_of_isMarked h (hs s hmem)).trans (List.map_id _)
  have hlhs : rule.lhs.rename (respell h) = rule.lhs := by
    refine congrArg Side.mk (hstays fun s hs => ?_)
    rw [hlegible.lhs_eq] at hs
    rw [List.mem_singleton.1 hs]
    exact hlegible.parent
  have hrhs : (if rule.lexical then rule.rhs else rule.rhs.rename (respell h)) = rule.rhs := by
    split
    · rfl
    · rename_i hlexical
      exact congrArg Side.mk (hstays fun s hs =>
        (hlegible.children (Bool.eq_false_iff.2 hlexical) s hs).isMarked)
  rw [Rule.rename, hlhs, hrhs]

/-- The pieces of a legible rule of at most `h + 2` symbols without a bound are those of order `h`,
respelled. -/
theorem map_rename_pieces {h : Nat} {rule : Rule κ} (hlegible : rule.Legible)
    (hreal : 2 < rule.rhs.size → ∀ symbol ∈ rule.rhs.symbols, symbol ≠ placeholder)
    (hnarrow : rule.rhs.size ≤ h + 2) :
    (unbounded.pieces rule).map (Rule.rename (respell h)) = (order h).pieces rule := by
  by_cases hsize : 2 < rule.rhs.size
  · obtain ⟨symbol, rest, hrhs, hpieces⟩ := hlegible.exists_chain_eq hsize
    have htop : ∀ (top : Bool) (chain : List (Rule κ)),
        (withTop top chain).map (Rule.rename (respell h)) =
          withTop top (chain.map (Rule.rename (respell h))) := by
      intro top chain
      cases chain <;> rfl
    have hclear := hlegible.clear_of_size (Nat.le_of_lt hsize)
    have hreal := hreal hsize
    rw [hrhs] at hclear hreal
    rw [Side.size, hrhs, List.length_cons] at hnarrow
    have hlinks := map_rename_links (κ := κ) rule.lhs.text [] (slide_emptyWindow (order h) symbol)
      hclear hreal (by rw [List.length_nil]; omega)
    rw [hpieces, htop, hlinks, rewritten, respell_of_isMarked h hlegible.parent,
      ← hlegible.lhs_eq, pieces_of_lt_size hsize, chain, hrhs]
  · have hsize : rule.rhs.size ≤ 2 := Nat.le_of_not_lt hsize
    rw [pieces_of_size_le hsize, pieces_of_size_le hsize, List.map_singleton,
      rename_of_legible hlegible]

/-- If the pieces of legible rules are respelled to those of another order, they can be renamed. -/
theorem renamable_pieces {h : Nat} {rules : List (Rule κ)}
    (hlegible : ∀ rule ∈ rules, rule.Legible)
    (hpieces : ∀ rule ∈ rules,
      (unbounded.pieces rule).map (Rule.rename (respell h)) = (order h).pieces rule) :
    Rule.Renamable (respell h) (rules.flatMap unbounded.pieces) := by
  refine ⟨(respell_involutive h).injective, fun piece hp => ?_, fun piece hp => ?_,
    fun piece hp hone => ?_⟩
  · exact proper_of_mem_flatMap_pieces (fun rule hr => (hlegible rule hr).toProper) hp
  · obtain ⟨rule, hr, hp⟩ := List.mem_flatMap.1 hp
    have hrenamed : piece.rename (respell h) ∈ (order h).pieces rule := by
      rw [← hpieces rule hr]
      exact List.mem_map_of_mem hp
    exact (proper_of_mem_pieces (hlegible rule hr).toProper hrenamed).toPlain
  · obtain ⟨rule, hr, hp⟩ := List.mem_flatMap.1 hp
    rcases eq_or_isLink_of_mem_pieces hp with rfl | hlink
    · exact rename_of_legible (hlegible piece hr) h
    · -- A link has two symbols on the right.
      exact absurd (hone.symm.trans hlink.size) (by decide)

end Markovization

open Markovization (respell)

namespace Training

/-- The grammar that is trained with a window of order `h` is the one that is trained without a
bound, but for the names of introduced symbols, if no node of the trees has more than `h + 2`
children, and if labels are words and categories are clear and are no placeholders. The names are
exchanged by a bijection which is its own inverse and which keeps all other symbols. -/
theorem renamedBy_train (h : Nat) {trees : List Tree}
    (hlabels : ∀ t ∈ trees, t.AllLabels Text.IsWord) (hclear : ∀ t ∈ trees, t.Clear)
    (hreal : ∀ t ∈ trees, ∀ u ∈ t.nodes, u.isLeaf = false → u.label ≠ Markovization.placeholder)
    (hnarrow : ∀ t ∈ trees, ∀ u ∈ t.nodes, u.children.length ≤ h + 2) :
    Function.Involutive (respell h) ∧
    (∀ symbol, Markovization.isMarked symbol = false → respell h symbol = symbol) ∧
    (∀ parent before, Markovization.Short h before →
      respell h (Markovization.nameAfter .unbounded parent before) =
        Markovization.nameAfter (.order h) parent before) ∧
    (train .unbounded trees : Result κ).grammar.RenamedBy (respell h)
      (train (.order h) trees).grammar := by
  refine ⟨Markovization.respell_involutive h,
    fun symbol hs => Markovization.respell_of_isMarked h hs,
    fun parent before hs => Markovization.respell_nameAfter hs parent, ?_⟩
  have hlegible : ∀ rule ∈ (productions trees : List (Rule κ)), rule.Legible :=
    fun _ hr => legible_of_mem_productions hlabels hclear hr
  have hpieces : ∀ rule ∈ (productions trees : List (Rule κ)),
      (Markovization.unbounded.pieces rule).map (Rule.rename (respell h)) =
        (Markovization.order h).pieces rule := by
    intro rule hr
    obtain ⟨t, ht, hvalid, hrule⟩ := mem_productions.1 hr
    obtain ⟨⟨label, children⟩, mark, hu, hleaf, rfl⟩ := Tree.exists_of_mem_rulesFrom hrule
    have hsize : ((Tree.node label children).ruleAt mark : Rule κ).rhs.size = children.length :=
      List.length_map _
    refine Markovization.map_rename_pieces (hlegible _ hr) (fun hmany symbol hs => ?_) ?_
    · obtain ⟨c, hc, rfl⟩ := List.mem_map.1 hs
      have hshaped := (Tree.shaped_of_validate hvalid).subtree hu hleaf
      obtain hnone | ⟨word, rfl⟩ := hshaped.children
      · exact hreal t ht c (Tree.mem_nodes.2 (.trans (.child hc (.refl c)) hu)) (hnone c hc)
      · -- A node over a word has this child only.
        rw [hsize, List.length_singleton] at hmany
        omega
    · rw [hsize]
      exact hnarrow t ht _ (Tree.mem_nodes.2 hu)
  have hmap : ((productions trees).flatMap Markovization.unbounded.pieces).map
      (Rule.rename (κ := κ) (respell h)) =
        (productions trees).flatMap (Markovization.order h).pieces := by
    rw [List.map_flatMap]
    exact List.flatMap_congr hpieces
  rw [grammar_train _ hlabels, grammar_train _ hlabels, ← hmap]
  exact Grammar.estimate_rename (Markovization.renamable_pieces hlegible hpieces)

/-- A phrase with two adjectives has four parts, which a window of two is wide enough for. With it
the rules of the phrases go by names with a placeholder. -/
theorem renamedBy_train_dogPhrases :
    (∀ t ∈ dogPhrases, t.AllLabels Text.IsWord) ∧ (∀ t ∈ dogPhrases, t.Clear) ∧
      (∀ t ∈ dogPhrases, ∀ u ∈ t.nodes, u.isLeaf = false →
        u.label ≠ Markovization.placeholder) ∧
      (∀ t ∈ dogPhrases, ∀ u ∈ t.nodes, u.children.length ≤ 2 + 2) ∧
      Function.Involutive (respell 2) ∧
      respell 2 "[DT]@NP" = "[-,DT]@NP" ∧
      let wide : Result WholeCost := train (.order 2) dogPhrases
      let unbounded : Result WholeCost := train .unbounded dogPhrases
      unbounded.grammar.RenamedBy (respell 2) wide.grammar ∧
        unbounded.grammar.counts.entries.map (·.2.rule.lhs.text) =
          ["NP", "[DT]@NP", "DT", "JJ", "NN", "JJ", "[DT]@NP", "[DT,JJ]@NP"] ∧
        wide.grammar.counts.entries.map (·.2.rule.lhs.text) =
          ["NP", "[-,DT]@NP", "DT", "JJ", "NN", "JJ", "[-,DT]@NP", "[DT,JJ]@NP"] := by
  have hlabels : ∀ t ∈ dogPhrases, t.AllLabels Text.IsWord := by decide +kernel
  have hclear : ∀ t ∈ dogPhrases, t.Clear := by decide +kernel
  have hreal : ∀ t ∈ dogPhrases, ∀ u ∈ t.nodes, u.isLeaf = false →
      u.label ≠ Markovization.placeholder := by decide +kernel
  have hnarrow : ∀ t ∈ dogPhrases, ∀ u ∈ t.nodes, u.children.length ≤ 2 + 2 := by decide +kernel
  obtain ⟨hinvolutive, -, hname, hrenamed⟩ :=
    renamedBy_train (κ := WholeCost) 2 hlabels hclear hreal hnarrow
  exact ⟨hlabels, hclear, hreal, hnarrow, hinvolutive, hname "NP" ["DT"] (by decide), hrenamed,
    by decide +kernel, by decide +kernel⟩

end Training

end Constituency
