import Constituency.Proofs.Cost
import Constituency.Proofs.Binarization
import Mathlib.Data.List.DropRight

/-!
# The shape of a chain

A rule with more than two symbols on the right is divided by a chain of binary rules. Each takes one
symbol and passes the rest on to an introduced symbol, which the next one rewrites (`ChainOf`). The
invariant along the chain is that of its window: after some symbols it holds all of them, none, or
the last ones of a row that begins with placeholders (`slide_window`), and introduced symbols are
named after it. A binarizer gives this chain (`chain_shape`), also after it has been given other
rules, as long as no two of them have the same texts on both sides and yet other symbols.
-/

namespace Constituency

variable {κ : Type} [Cost κ]

namespace Markovization

/-! ## The window -/

/-- What a window holds after one symbol or more: all of them, or none, or as many of the last ones
as the order says, in a row that begins with one placeholder less. -/
def window (m : Markovization) (before : List String) : List String :=
  match m with
  | unbounded => before
  | order 0 => []
  | order (h + 1) => (List.replicate h placeholder ++ before).rtake (h + 1)

/-- A row of `h + 1` items or more loses one of its last `h + 1` items at their beginning. -/
theorem drop_one_rtake {row : List String} {h : Nat} (hle : h + 1 ≤ row.length) :
    (row.rtake (h + 1)).drop 1 = row.rtake h := by
  rw [List.rtake, List.rtake, List.drop_drop]
  congr 1
  omega

/-- The window after the first symbol. -/
theorem slide_emptyWindow (m : Markovization) (symbol : String) :
    m.slide m.emptyWindow symbol = m.window [symbol] := by
  match m with
  | unbounded => rfl
  | order 0 => rfl
  | order (h + 1) =>
    have hall : (List.replicate h placeholder).rtake h = List.replicate h placeholder := by
      simp [List.rtake]
    rw [window, List.rtake_concat_succ, hall]
    rfl

/-- The window after one more symbol. -/
theorem slide_window (m : Markovization) {before : List String} (hne : before ≠ [])
    (symbol : String) : m.slide (m.window before) symbol = m.window (before ++ [symbol]) := by
  match m with
  | unbounded => rfl
  | order 0 => rfl
  | order (h + 1) =>
    have hlong : h + 1 ≤ (List.replicate h placeholder ++ before).length := by
      have hpos := List.length_pos_iff.2 hne
      rw [List.length_append, List.length_replicate]
      omega
    rw [window, window, ← List.append_assoc, List.rtake_concat_succ, slide, drop_one_rtake hlong]

/-! ## The rules of a chain -/

/-- The name of the symbol that is introduced below a parent after some symbols. -/
def nameAfter (m : Markovization) (parent : String) (before : List String) : String :=
  "[" ++ ",".intercalate (m.window before) ++ "]@" ++ parent

/-- Introduced symbols have such names. -/
theorem introduced_window (m : Markovization) (parent : String) (before : List String) :
    introduced (m.window before) parent = m.nameAfter parent before := by
  have hmark : "]" ++ String.singleton mark = "]@" := rfl
  rw [introduced, nameAfter, ← hmark]
  simp only [String.append_assoc]

/-- A chain of rules that divides a rule with more than two symbols on the right. -/
structure ChainOf (m : Markovization) (rule : Rule κ) (chain : List (Rule κ)) : Prop where
  /-- There is one rule less than there are symbols. -/
  length : chain.length = rule.rhs.size - 1
  /-- Every rule has two symbols on the right, is not lexical and has no cost. -/
  links : ∀ link ∈ chain, link.rhs.size = 2 ∧ link.lexical = false ∧ link.cost = 0
  /-- The first one rewrites what the rule does and bears its mark of the root. -/
  first : chain.head?.map (fun link => (link.lhs, link.top)) = some (rule.lhs, rule.top)
  /-- The later ones bear no mark. -/
  later : ∀ link ∈ chain.tail, link.top = false
  /-- A later one rewrites the second symbol of the one before it. -/
  linked : chain.IsChain fun link next => next.lhs.symbols = link.rhs.symbols.tail
  /-- The first symbols of all rules and the second one of the last are the symbols of the rule. -/
  taken : chain.filterMap (·.rhs.symbols.head?) ++
    (chain.getLast?.bind (·.rhs.symbols.getLast?)).toList = rule.rhs.symbols
  /-- The second symbol of any rule but the last is named after the symbols taken so far. -/
  named : ∀ place link, chain[place]? = some link → place + 1 < chain.length →
    link.rhs.symbols.getLast? = some (m.nameAfter rule.lhs.text (rule.rhs.symbols.take (place + 1)))

/-- What a later rule of a chain rewrites is named after the symbols taken before. -/
theorem ChainOf.lhs_eq {m : Markovization} {rule : Rule κ} {chain : List (Rule κ)}
    (h : m.ChainOf rule chain) {place : Nat} {link : Rule κ}
    (hlink : chain[place + 1]? = some link) :
    link.lhs = Side.single (m.nameAfter rule.lhs.text (rule.rhs.symbols.take (place + 1))) := by
  obtain ⟨hplace, rfl⟩ := List.getElem?_eq_some_iff.1 hlink
  let before := chain[place]
  obtain ⟨symbol, name, hrhs⟩ : ∃ symbol name, before.rhs.symbols = [symbol, name] :=
    List.length_eq_two.1 (h.links before (List.getElem_mem _)).1
  have hname := h.named place before (List.getElem?_eq_getElem _) hplace
  have hlhs : chain[place + 1].lhs.symbols = before.rhs.symbols.tail :=
    List.isChain_iff_getElem.1 h.linked place hplace
  rw [hrhs] at hname hlhs
  obtain rfl := Option.some.inj hname
  exact congrArg Side.mk hlhs

/-- A right-hand side of three symbols or more is divided by a rule that takes the first one and by
the chain of the symbol that it introduces. -/
theorem links_cons_cons (m : Markovization) (parent : String) (lhs : Side) (window : List String)
    (symbol next last : String) (rest : List String) :
    (m.links parent lhs window symbol (next :: last :: rest) : List (Rule κ)) =
      Rule.plain lhs ⟨[symbol, introduced (m.slide window symbol) parent]⟩ 0 ::
        m.links parent (Side.single (introduced (m.slide window symbol) parent))
          (m.slide window symbol) next (last :: rest) := rfl

/-- No rule that divides a right-hand side bears a mark of the root. -/
theorem top_of_mem_links {m : Markovization} {parent : String} {lhs : Side} {window : List String}
    {symbol : String} {rest : List String} {link : Rule κ}
    (h : link ∈ m.links parent lhs window symbol rest) : link.top = false := by
  induction rest generalizing lhs window symbol with
  | nil => exact absurd h List.not_mem_nil
  | cons next rest ih =>
    cases rest with
    | nil =>
      obtain rfl := List.mem_singleton.1 h
      rfl
    | cons last rest =>
      rcases List.mem_cons.1 h with rfl | h
      · rfl
      · exact ih h

/-- A rule that divides a right-hand side rewrites the second symbol of the one before it. -/
theorem isChain_links (m : Markovization) (parent : String) (lhs : Side) (window : List String)
    (symbol : String) (rest : List String) :
    (m.links parent lhs window symbol rest : List (Rule κ)).IsChain
      fun link next => next.lhs.symbols = link.rhs.symbols.tail := by
  induction rest generalizing lhs window symbol with
  | nil => exact .nil
  | cons next rest ih =>
    cases rest with
    | nil => exact .singleton _
    | cons last rest =>
      let name := Side.single (introduced (m.slide window symbol) parent)
      have hrest := ih name (m.slide window symbol) next
      obtain ⟨first, others, hlinks, hfirst⟩ := exists_links_eq_cons (κ := κ) m parent name
        (m.slide window symbol) next (List.cons_ne_nil last rest)
      rw [hlinks] at hrest
      rw [links_cons_cons, hlinks]
      exact .cons_cons (congrArg Side.symbols hfirst) hrest

/-- The rules that divide a right-hand side take its symbols in order. -/
theorem taken_links (m : Markovization) (parent : String) (lhs : Side) (window : List String)
    (symbol : String) {rest : List String} (hne : rest ≠ []) :
    (m.links parent lhs window symbol rest : List (Rule κ)).filterMap (·.rhs.symbols.head?) ++
        ((m.links parent lhs window symbol rest : List (Rule κ)).getLast?.bind
          (·.rhs.symbols.getLast?)).toList =
      symbol :: rest := by
  induction rest generalizing lhs window symbol with
  | nil => exact absurd rfl hne
  | cons next rest ih =>
    cases rest with
    | nil => rfl
    | cons last rest =>
      let name := Side.single (introduced (m.slide window symbol) parent)
      have hrest := ih name (m.slide window symbol) next (List.cons_ne_nil last rest)
      obtain ⟨first, others, hlinks, -⟩ := exists_links_eq_cons (κ := κ) m parent name
        (m.slide window symbol) next (List.cons_ne_nil last rest)
      rw [hlinks] at hrest
      rw [links_cons_cons, hlinks, List.getLast?_cons_cons, ← hrest]
      rfl

/-- The rules that divide a right-hand side introduce symbols named after those taken so far. -/
theorem named_links (m : Markovization) (parent : String) (before : List String) {lhs : Side}
    {window : List String} {symbol : String} {rest : List String}
    (hwindow : m.slide window symbol = m.window (before ++ [symbol])) {place : Nat}
    {link : Rule κ} (h : (m.links parent lhs window symbol rest)[place]? = some link)
    (hplace : place + 1 < rest.length) :
    link.rhs.symbols.getLast? =
      some (m.nameAfter parent (before ++ (symbol :: rest).take (place + 1))) := by
  induction rest generalizing before lhs window symbol place with
  | nil => exact absurd hplace (Nat.not_lt_zero _)
  | cons next rest ih =>
    cases rest with
    | nil => exact absurd hplace (by simp)
    | cons last rest =>
      cases place with
      | zero =>
        obtain rfl := Option.some.inj h
        rw [← introduced_window, List.take_succ_cons, List.take_zero, ← hwindow]
        rfl
      | succ place =>
        -- The window of the chain after the first rule is the one after the symbol.
        have hnext : m.slide (m.slide window symbol) next =
            m.window (before ++ [symbol] ++ [next]) := by
          rw [hwindow, slide_window m (by simp)]
        have hname := ih (before ++ [symbol]) hnext h (Nat.lt_of_succ_lt_succ hplace)
        rwa [List.append_assoc] at hname

/-- Another mark of the root makes the chain of a rule with that mark. -/
theorem ChainOf.withTop {m : Markovization} {rule : Rule κ} {chain : List (Rule κ)}
    (h : m.ChainOf rule chain) (top : Bool) :
    m.ChainOf { rule with top } (withTop top chain) := by
  cases chain with
  | nil => exact absurd h.first nofun
  | cons first others =>
    have hlhs : first.lhs = rule.lhs := congrArg Prod.fst (Option.some.inj h.first)
    refine ⟨h.length, fun link hlink => ?_, ?_, h.later, ?_, ?_, fun place link hlink hplace => ?_⟩
    · rcases List.mem_cons.1 hlink with rfl | hlink
      · exact h.links first List.mem_cons_self
      · exact h.links link (List.mem_cons_of_mem _ hlink)
    · exact congrArg (fun lhs => some (lhs, top)) hlhs
    · cases h.linked with
      | singleton => exact .singleton _
      | cons_cons hnext hrest => exact .cons_cons hnext hrest
    · cases others <;> exact h.taken
    · cases place with
      | zero =>
        obtain rfl := Option.some.inj hlink
        exact h.named 0 first rfl hplace
      | succ place => exact h.named (place + 1) link hlink hplace

/-- The chain of a rule with more than two symbols on the right divides it. -/
theorem chainOf_chain (m : Markovization) {rule : Rule κ} (hsize : 2 < rule.rhs.size) :
    m.ChainOf rule (m.chain rule) := by
  obtain ⟨symbol, rest, hrhs⟩ : ∃ symbol rest, rule.rhs.symbols = symbol :: rest :=
    List.exists_cons_of_length_pos (Nat.zero_lt_of_lt hsize)
  have hsize : rest.length + 1 = rule.rhs.size := by rw [Side.size, hrhs, List.length_cons]
  have hne : rest ≠ [] := List.ne_nil_of_length_pos (by omega)
  have hlength : (m.links rule.lhs.text rule.lhs m.emptyWindow symbol rest : List (Rule κ)).length =
      rest.length := length_links _ _ _ _ _ _
  obtain ⟨first, others, hlinks, hfirst⟩ :=
    exists_links_eq_cons (κ := κ) m rule.lhs.text rule.lhs m.emptyWindow symbol hne
  -- But for the mark of the root, the chain divides the rule.
  have hunmarked : m.ChainOf { rule with top := false }
      (m.links rule.lhs.text rule.lhs m.emptyWindow symbol rest) := by
    refine ⟨?_, fun link hlink => ?_, ?_, fun link hlink => ?_, isChain_links _ _ _ _ _ _,
      (taken_links _ _ _ _ _ hne).trans hrhs.symm, fun place link hlink hplace => ?_⟩
    · rw [hlength, ← hsize, Nat.add_sub_cancel]
    · have hislink := isLink_of_mem_links hlink
      exact ⟨hislink.size, hislink.lexical, hislink.cost⟩
    · have htop : first.top = false := top_of_mem_links (hlinks ▸ List.mem_cons_self)
      rw [hlinks, List.head?_cons, Option.map_some, hfirst, htop]
    · exact top_of_mem_links (List.mem_of_mem_tail hlink)
    · have hname := named_links m rule.lhs.text [] (slide_emptyWindow m symbol) hlink
        (hlength ▸ hplace)
      rwa [List.nil_append, ← hrhs] at hname
  have hchain : m.chain rule =
      Markovization.withTop rule.top
        (m.links rule.lhs.text rule.lhs m.emptyWindow symbol rest) := by
    rw [chain, hrhs]
  rw [hchain]
  exact hunmarked.withTop rule.top

end Markovization

namespace Binarizer

variable {m : Markovization}

/-- A rule with more than two symbols on the right is divided by a binarizer that keeps no chain of
another rule with the same texts. -/
theorem Keeps.chainOf {b : Binarizer κ} {P : Rule κ → Prop} (h : b.Keeps m P) {rule : Rule κ}
    (hsize : 2 < rule.rhs.size)
    (hsame : ∀ other, P other → other.key = rule.key →
      other.lhs = rule.lhs ∧ other.rhs = rule.rhs) :
    m.ChainOf rule (b.binarize rule).2 := by
  obtain ⟨other, hother, hkey, hchain⟩ := h.exists_chain hsize
  have hsides : other.lhs = rule.lhs ∧ other.rhs = rule.rhs := by
    rcases hother with rfl | hother
    · exact ⟨rfl, rfl⟩
    · exact hsame other hother hkey
  rw [hchain, Markovization.withTop_chain m hsides.1 hsides.2]
  exact Markovization.chainOf_chain m hsize

/-- A rule with more than two symbols on the right is divided by a binarizer that has made no chain
yet. -/
theorem chainOf_binarize_new (m : Markovization) {rule : Rule κ} (hsize : 2 < rule.rhs.size) :
    m.ChainOf rule ((new m).binarize rule).2 := by
  rw [binarize_new, Markovization.pieces_of_lt_size hsize]
  exact Markovization.chainOf_chain m hsize

/-- A rule with more than two symbols on the right is divided by a binary chain. Its rules take the
symbols one by one, each rewrites what the one before it has introduced, and what is introduced is
named after the window and the left-hand side. The first one alone bears the mark of the root, if
the rule does. A binarizer that has been given rules before gives the chain too, unless one of them
had the texts of this rule and other symbols. -/
theorem chain_shape (m : Markovization) {rule : Rule κ} (hsize : 2 < rule.rhs.size) :
    m.ChainOf rule ((new m).binarize rule).2 ∧
    ∀ history : List (Rule κ),
      (∀ other ∈ history, other.key = rule.key → other.lhs = rule.lhs ∧ other.rhs = rule.rhs) →
        m.ChainOf rule ((((new m).binarizeAll history).1).binarize rule).2 := by
  refine ⟨chainOf_binarize_new m hsize, fun history hhistory => ?_⟩
  have hkeeps := (keeps_new m (· ∈ history)).binarizeAll fun _ hrule => hrule
  exact hkeeps.chainOf hsize hhistory

/-- A rule with five symbols on the right, found at the root. -/
def longRule : Rule WholeCost := ⟨⟨["S"]⟩, ⟨["A", "B", "C", "D", "E"]⟩, ⟨7⟩, false, true⟩

/-- With a window of two, the third symbol that is introduced has forgotten the first one. The chain
bears the mark of the root, although it has been made of the rule without the mark. -/
theorem chain_shape_longRule :
    2 < longRule.rhs.size ∧
      (∀ other ∈ [{ longRule with top := false }], other.key = longRule.key →
        other.lhs = longRule.lhs ∧ other.rhs = longRule.rhs) ∧
      let chain := ((((new (.order 2)).binarizeAll [{ longRule with top := false }]).1).binarize
        longRule).2
      Markovization.ChainOf (.order 2) longRule chain ∧
        chain.map (·.top) = [true, false, false, false] ∧
        Markovization.nameAfter (.order 2) longRule.lhs.text ["A", "B", "C"] = "[B,C]@S" := by
  have hsize : 2 < longRule.rhs.size := by decide
  have hhistory : ∀ other ∈ [{ longRule with top := false }], other.key = longRule.key →
      other.lhs = longRule.lhs ∧ other.rhs = longRule.rhs := by decide +kernel
  exact ⟨hsize, hhistory, (chain_shape (.order 2) hsize).2 _ hhistory, by decide +kernel,
    by decide +kernel⟩

end Binarizer

end Constituency
