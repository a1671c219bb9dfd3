import Constituency.Binarization
import Constituency.Proofs.Markovization
import Constituency.Proofs.OrderedMap
import Constituency.Proofs.Rule

/-!
# What binarization makes of a rule

The rules that a binarizer gives for a rule depend on its order and on that rule alone
(`Keeps.binarize_eq_pieces`): a chain is kept under the texts of a rule, and among rules whose
symbols are words these tell the rule. Rules like those of trees become rules like those of trees,
none of which has more than two symbols on the right.
-/

namespace Constituency

open Text (IsWord)

variable {κ : Type} [Cost κ]

namespace Markovization

/-! ## The pieces of a rule -/

/-- The rules that stand for a rule, without regard to what has been binarized before. -/
def pieces (m : Markovization) (rule : Rule κ) : List (Rule κ) :=
  if rule.rhs.size ≤ 2 then [rule] else m.chain rule

/-- A rule with at most two symbols on the right is its own only piece. -/
theorem pieces_of_size_le {m : Markovization} {rule : Rule κ} (h : rule.rhs.size ≤ 2) :
    m.pieces rule = [rule] := if_pos h

/-- The pieces of any other rule are its chain. -/
theorem pieces_of_lt_size {m : Markovization} {rule : Rule κ} (h : 2 < rule.rhs.size) :
    m.pieces rule = m.chain rule := if_neg (Nat.not_le_of_gt h)

omit [Cost κ] in
/-- The last mark of the root counts. -/
theorem withTop_withTop (first last : Bool) (chain : List (Rule κ)) :
    withTop last (withTop first chain) = withTop last chain := by
  cases chain <;> rfl

/-- The chain of a rule is that of any rule with the same sides, with its own mark of the root. -/
theorem withTop_chain (m : Markovization) {rule other : Rule κ} (hlhs : other.lhs = rule.lhs)
    (hrhs : other.rhs = rule.rhs) : withTop rule.top (m.chain other) = m.chain rule := by
  rw [chain, chain, hlhs, hrhs]
  cases rule.rhs.symbols with
  | nil => rfl
  | cons symbol rest => exact withTop_withTop _ _ _

/-- A rule of a chain: it is no lexical rule, it has two symbols on the right, and it has no cost
yet. -/
structure IsLink (rule : Rule κ) : Prop where
  /-- It is not marked as lexical. -/
  lexical : rule.lexical = false
  /-- There are two symbols on the right. -/
  size : rule.rhs.symbols.length = 2
  /-- The cost is nothing. -/
  cost : rule.cost = 0

/-- The rules that divide a right-hand side are links. -/
theorem isLink_of_mem_links {m : Markovization} {parent : String} {lhs : Side}
    {window : List String} {symbol : String} {rest : List String} {link : Rule κ}
    (h : link ∈ m.links parent lhs window symbol rest) : IsLink link := by
  induction rest generalizing lhs window symbol with
  | nil => exact absurd h List.not_mem_nil
  | cons next rest ih =>
    cases rest with
    | nil =>
      obtain rfl := List.mem_singleton.1 h
      exact ⟨rfl, rfl, rfl⟩
    | cons last rest =>
      rcases List.mem_cons.1 h with rfl | h
      · exact ⟨rfl, rfl, rfl⟩
      · exact ih h

omit [Cost κ] in
/-- A rule whose mark of the root may have been set is one of the others but for this mark. -/
theorem exists_of_mem_withTop {top : Bool} {chain : List (Rule κ)} {rule : Rule κ}
    (h : rule ∈ withTop top chain) :
    ∃ link ∈ chain, rule.lhs = link.lhs ∧ rule.rhs = link.rhs ∧ rule.lexical = link.lexical ∧
      rule.cost = link.cost := by
  cases chain with
  | nil => exact absurd h List.not_mem_nil
  | cons first rest =>
    rcases List.mem_cons.1 h with rfl | h
    · exact ⟨first, List.mem_cons_self, rfl, rfl, rfl, rfl⟩
    · exact ⟨rule, List.mem_cons_of_mem _ h, rfl, rfl, rfl, rfl⟩

omit [Cost κ] in
/-- Every rule has the sides of one whose mark of the root may have been set. -/
theorem exists_mem_withTop (top : Bool) {chain : List (Rule κ)} {link : Rule κ} (h : link ∈ chain) :
    ∃ rule ∈ withTop top chain, rule.lhs = link.lhs ∧ rule.rhs = link.rhs := by
  cases chain with
  | nil => exact absurd h List.not_mem_nil
  | cons first rest =>
    rcases List.mem_cons.1 h with rfl | h
    · exact ⟨_, List.mem_cons_self, rfl, rfl⟩
    · exact ⟨link, List.mem_cons_of_mem _ h, rfl, rfl⟩

/-- The rules of a chain are links. -/
theorem isLink_of_mem_chain {m : Markovization} {rule link : Rule κ} (h : link ∈ m.chain rule) :
    IsLink link := by
  rw [chain] at h
  split at h
  · exact absurd h List.not_mem_nil
  · obtain ⟨first, hfirst, -, hrhs, hlexical, hcost⟩ := exists_of_mem_withTop h
    have hlink := isLink_of_mem_links hfirst
    exact ⟨hlexical.trans hlink.lexical, hrhs ▸ hlink.size, hcost.trans hlink.cost⟩

/-- A piece of a rule is the rule itself, or a link. -/
theorem eq_or_isLink_of_mem_pieces {m : Markovization} {rule piece : Rule κ}
    (h : piece ∈ m.pieces rule) : piece = rule ∨ IsLink piece := by
  rw [pieces] at h
  split at h
  · exact Or.inl (List.mem_singleton.1 h)
  · exact Or.inr (isLink_of_mem_chain h)

/-- The pieces of a rule without a cost have none. -/
theorem cost_of_mem_pieces {m : Markovization} {rule piece : Rule κ} (hcost : rule.cost = 0)
    (h : piece ∈ m.pieces rule) : piece.cost = 0 := by
  rcases eq_or_isLink_of_mem_pieces h with rfl | hlink
  · exact hcost
  · exact hlink.cost

/-- No piece of a rule has more than two symbols on the right. -/
theorem size_le_of_mem_pieces {m : Markovization} {rule piece : Rule κ}
    (h : piece ∈ m.pieces rule) : piece.rhs.size ≤ 2 := by
  unfold pieces at h
  split at h
  · rename_i hsize
    exact List.mem_singleton.1 h ▸ hsize
  · exact Nat.le_of_eq (isLink_of_mem_chain h).size

/-- A piece of a rule with symbols on the right has such too. -/
theorem size_pos_of_mem_pieces {m : Markovization} {rule piece : Rule κ} (hsize : 0 < rule.rhs.size)
    (h : piece ∈ m.pieces rule) : 0 < piece.rhs.size := by
  rcases eq_or_isLink_of_mem_pieces h with rfl | hlink
  · exact hsize
  · rw [Side.size, hlink.size]
    decide

/-! ## The rules of a chain -/

/-- A right-hand side is divided by one rule less than it has symbols. -/
theorem length_links (m : Markovization) (parent : String) (lhs : Side) (window : List String)
    (symbol : String) (rest : List String) :
    (m.links parent lhs window symbol rest : List (Rule κ)).length = rest.length := by
  induction rest generalizing lhs window symbol with
  | nil => rfl
  | cons next rest ih =>
    cases rest with
    | nil => rfl
    | cons last rest => simp only [links, List.length_cons, ih]

/-- The first rule of a chain rewrites the left-hand side. -/
theorem exists_links_eq_cons (m : Markovization) (parent : String) (lhs : Side)
    (window : List String) (symbol : String) {rest : List String} (hne : rest ≠ []) :
    ∃ (first : Rule κ) (others : List (Rule κ)),
      m.links parent lhs window symbol rest = first :: others ∧ first.lhs = lhs := by
  match rest, hne with
  | [_], _ => exact ⟨_, _, rfl, rfl⟩
  | _ :: _ :: _, _ => exact ⟨_, _, rfl, rfl⟩

/-- A rule of a chain is the first one, which rewrites the left-hand side, or a further one. -/
theorem lhs_eq_or_mem_tail {m : Markovization} {parent : String} {lhs : Side}
    {window : List String} {symbol : String} {rest : List String} {link : Rule κ}
    (h : link ∈ m.links parent lhs window symbol rest) :
    link.lhs = lhs ∨ link ∈ (m.links parent lhs window symbol rest).tail := by
  have hne : rest ≠ [] := by
    rintro rfl
    exact absurd h List.not_mem_nil
  obtain ⟨first, others, hlinks, hfirst⟩ :=
    exists_links_eq_cons (κ := κ) m parent lhs window symbol hne
  rw [hlinks] at h ⊢
  rcases List.mem_cons.1 h with rfl | h
  · exact Or.inl hfirst
  · exact Or.inr h

/-- Every rule of a chain but the first rewrites an introduced symbol. -/
theorem exists_introduced_of_mem_tail {m : Markovization} {parent : String} {lhs : Side}
    {window : List String} {symbol : String} {rest : List String} {link : Rule κ}
    (h : link ∈ (m.links parent lhs window symbol rest).tail) :
    ∃ history, link.lhs = Side.single (introduced history parent) := by
  induction rest generalizing lhs window symbol with
  | nil => exact absurd h List.not_mem_nil
  | cons next rest ih =>
    cases rest with
    | nil => exact absurd h List.not_mem_nil
    | cons last rest =>
      -- After the first rule comes the chain of the symbol that it introduces.
      have h : link ∈ m.links parent (Side.single (introduced (m.slide window symbol) parent))
          (m.slide window symbol) next (last :: rest) := h
      obtain hlhs | h := lhs_eq_or_mem_tail h
      · exact ⟨_, hlhs⟩
      · exact ih h

omit [Cost κ] in
/-- The mark of the root is set on the first rule only. -/
theorem tail_withTop (top : Bool) (chain : List (Rule κ)) :
    (withTop top chain).tail = chain.tail := by
  cases chain <;> rfl

omit [Cost κ] in
/-- Setting the mark of the root keeps the number of rules. -/
theorem length_withTop (top : Bool) (chain : List (Rule κ)) :
    (withTop top chain).length = chain.length := by
  cases chain <;> rfl

/-- The chain of a rule has one rule less than there are symbols on the right. -/
theorem length_chain (m : Markovization) (rule : Rule κ) :
    (m.chain rule).length = rule.rhs.size - 1 := by
  unfold chain Side.size
  split
  · rename_i h
    rw [h]
    rfl
  · rename_i symbol rest h
    rw [length_withTop, length_links, h, List.length_cons, Nat.add_sub_cancel]

/-- There are fewer further pieces of a rule than symbols on the right, if there are such. -/
theorem length_tail_pieces_lt {m : Markovization} {rule : Rule κ} (h : 0 < rule.rhs.size) :
    (m.pieces rule).tail.length < rule.rhs.size := by
  unfold pieces
  split
  · exact h
  · rw [List.length_tail, length_chain]
    omega

/-- The further pieces of a rule rewrite introduced symbols. -/
theorem exists_introduced_of_mem_tail_pieces {m : Markovization} {rule piece : Rule κ}
    (h : piece ∈ (m.pieces rule).tail) :
    ∃ history, piece.lhs = Side.single (introduced history rule.lhs.text) := by
  unfold pieces at h
  split at h
  · exact absurd h List.not_mem_nil
  · rw [chain] at h
    split at h
    · exact absurd h List.not_mem_nil
    · rw [tail_withTop] at h
      exact exists_introduced_of_mem_tail h

/-- A rule of a chain rewrites what the divided rule does, or an introduced symbol. -/
theorem lhs_eq_or_introduced_of_mem_chain {m : Markovization} {rule link : Rule κ}
    (h : link ∈ m.chain rule) :
    link.lhs = rule.lhs ∨ ∃ history, link.lhs = Side.single (introduced history rule.lhs.text) := by
  rw [chain] at h
  split at h
  · exact absurd h List.not_mem_nil
  · obtain ⟨first, hfirst, hlhs, -⟩ := exists_of_mem_withTop h
    rw [hlhs]
    exact (lhs_eq_or_mem_tail hfirst).imp_right exists_introduced_of_mem_tail

/-- A piece of a rule rewrites what the rule does, or an introduced symbol. -/
theorem lhs_eq_or_introduced {m : Markovization} {rule piece : Rule κ}
    (h : piece ∈ m.pieces rule) :
    piece.lhs = rule.lhs ∨
      ∃ history, piece.lhs = Side.single (introduced history rule.lhs.text) := by
  unfold pieces at h
  split at h
  · exact Or.inl (congrArg Rule.lhs (List.mem_singleton.1 h))
  · exact lhs_eq_or_introduced_of_mem_chain h

/-! ## Introduced symbols -/

/-- Words with commas between them hold no blank. -/
theorem isBlank_of_mem_intercalate {window : List String} (h : ∀ symbol ∈ window, IsWord symbol)
    {c : Char} (hc : c ∈ (",".intercalate window).toList) : Text.isBlank c = false := by
  obtain hcomma | ⟨symbol, hs, hc⟩ := Text.exists_of_mem_intercalate hc
  · obtain rfl : c = ',' := by simpa using hcomma
    decide
  · exact (h symbol hs).plain c hc

/-- An introduced symbol is a word if the symbols that it remembers are. -/
theorem isWord_introduced {window : List String} {parent : String}
    (hwindow : ∀ symbol ∈ window, IsWord symbol) (hparent : IsWord parent) :
    IsWord (introduced window parent) := by
  have hlist := toList_introduced window parent
  refine ⟨by rw [hlist]; exact List.cons_ne_nil _ _, fun c hc => ?_⟩
  rw [hlist, List.mem_cons, List.mem_append, List.mem_cons, List.mem_cons] at hc
  rcases hc with rfl | hc | rfl | rfl | hc
  · decide
  · exact isBlank_of_mem_intercalate hwindow hc
  · decide
  · decide
  · exact hparent.plain c hc

/-- The window before the first symbol holds words. -/
theorem isWord_of_mem_emptyWindow {m : Markovization} {symbol : String}
    (h : symbol ∈ m.emptyWindow) : IsWord symbol := by
  cases m with
  | unbounded => exact absurd h List.not_mem_nil
  | order size =>
    obtain rfl := List.eq_of_mem_replicate h
    decide

/-- The window holds words after one more of them. -/
theorem isWord_of_mem_slide {m : Markovization} {window : List String} {symbol : String}
    (hwindow : ∀ other ∈ window, IsWord other) (hsymbol : IsWord symbol) {other : String}
    (h : other ∈ m.slide window symbol) : IsWord other := by
  unfold slide at h
  split at h
  · rcases List.mem_append.1 h with h | h
    · exact hwindow other h
    · exact List.mem_singleton.1 h ▸ hsymbol
  · exact absurd h List.not_mem_nil
  · rcases List.mem_append.1 h with h | h
    · exact hwindow other (List.mem_of_mem_drop h)
    · exact List.mem_singleton.1 h ▸ hsymbol

/-! ## Proper pieces -/

/-- The rules that divide a right-hand side of words are proper. -/
theorem proper_of_mem_links {m : Markovization} {parent label : String} {window : List String}
    {symbol : String} {rest : List String} (hparent : IsWord parent) (hlabel : IsWord label)
    (hwindow : ∀ other ∈ window, IsWord other) (hsymbols : ∀ s ∈ symbol :: rest, IsWord s)
    {link : Rule κ} (h : link ∈ m.links parent (Side.single label) window symbol rest) :
    link.Proper := by
  have hlhs : ∀ {s : String}, s ∈ (Side.single label).symbols → IsWord s :=
    fun hs => List.mem_singleton.1 hs ▸ hlabel
  induction rest generalizing label window symbol with
  | nil => exact absurd h List.not_mem_nil
  | cons next rest ih =>
    have hsymbol := hsymbols symbol List.mem_cons_self
    have hnext := hsymbols next (List.mem_cons_of_mem _ List.mem_cons_self)
    cases rest with
    | nil =>
      obtain rfl := List.mem_singleton.1 h
      exact ⟨⟨fun s hs => hlhs hs, hsymbols⟩, rfl, nofun⟩
    | cons last rest =>
      have hslide : ∀ other ∈ m.slide window symbol, IsWord other :=
        fun other ho => isWord_of_mem_slide hwindow hsymbol ho
      have hname := isWord_introduced hslide hparent
      rcases List.mem_cons.1 h with rfl | h
      · refine ⟨⟨fun s hs => hlhs hs, fun s hs => ?_⟩, rfl, nofun⟩
        rcases List.mem_cons.1 hs with rfl | hs
        · exact hsymbol
        · exact List.mem_singleton.1 hs ▸ hname
      · exact ih hname hslide (fun s hs => hsymbols s (List.mem_cons_of_mem _ hs)) h
          fun hs => List.mem_singleton.1 hs ▸ hname

/-- The pieces of a proper rule are proper. -/
theorem proper_of_mem_pieces {m : Markovization} {rule piece : Rule κ} (h : rule.Proper)
    (hp : piece ∈ m.pieces rule) : piece.Proper := by
  rw [pieces] at hp
  split at hp
  · exact List.mem_singleton.1 hp ▸ h
  · obtain ⟨label, hlabel⟩ := List.length_eq_one_iff.1 h.single
    have hword : IsWord label := h.lhs label (hlabel ▸ List.mem_cons_self)
    have hside : rule.lhs = Side.single label := congrArg Side.mk hlabel
    have htext : rule.lhs.text = label := by rw [hside, Side.text_single]
    rw [chain] at hp
    split at hp
    · exact absurd hp List.not_mem_nil
    · rename_i symbol rest hrhs
      rw [htext, hside] at hp
      obtain ⟨link, hlink, hl, hr, hlexical, -⟩ := exists_of_mem_withTop hp
      have hproper := proper_of_mem_links hword hword (fun _ => isWord_of_mem_emptyWindow)
        (fun s hs => h.rhs s (hrhs ▸ hs)) hlink
      exact ⟨⟨hl ▸ hproper.lhs, hr ▸ hproper.rhs⟩, hl ▸ hproper.single,
        fun ht => hr ▸ hproper.lexical (hlexical ▸ ht)⟩

/-- The pieces of proper rules are proper. -/
theorem proper_of_mem_flatMap_pieces {m : Markovization} {rules : List (Rule κ)}
    (hproper : ∀ rule ∈ rules, rule.Proper) {piece : Rule κ} (h : piece ∈ rules.flatMap m.pieces) :
    piece.Proper := by
  obtain ⟨rule, hrule, hpiece⟩ := List.mem_flatMap.1 h
  exact proper_of_mem_pieces (hproper rule hrule) hpiece

/-- A proper rule that is the same as a proper link is not lexical. -/
theorem IsLink.lexical_of_key {link rule : Rule κ} (h : IsLink link) (hlink : link.Proper)
    (hrule : rule.Proper) (hkey : rule.key = link.key) : rule.lexical = false := by
  obtain ⟨-, hrhs⟩ := hrule.sides_eq hlink.toPlain hkey
  rw [Bool.eq_false_iff]
  intro hlexical
  have hone := hrule.lexical hlexical
  rw [hrhs, h.size] at hone
  exact absurd hone nofun

/-- The pieces of proper rules are unmixed if the rules are: no link is the same as a lexical
rule. -/
theorem unmixed_pieces {m : Markovization} {rules : List (Rule κ)}
    (hproper : ∀ rule ∈ rules, rule.Proper) (h : Rule.Unmixed rules) :
    Rule.Unmixed (rules.flatMap m.pieces) := by
  intro piece hpiece other hother hkey
  obtain ⟨rule, hrule, hpiece⟩ := List.mem_flatMap.1 hpiece
  obtain ⟨rule', hrule', hother⟩ := List.mem_flatMap.1 hother
  have hp := proper_of_mem_pieces (hproper rule hrule) hpiece
  have ho := proper_of_mem_pieces (hproper rule' hrule') hother
  rcases eq_or_isLink_of_mem_pieces hpiece with rfl | hlink
  · rcases eq_or_isLink_of_mem_pieces hother with rfl | hlink'
    · exact h piece hrule other hrule' hkey
    · rw [hlink'.lexical_of_key ho hp hkey, hlink'.lexical]
  · rw [hlink.lexical_of_key hp ho hkey.symm, hlink.lexical]

end Markovization

/-! ## The chains that are kept -/

namespace Binarizer

open Markovization (pieces withTop withTop_chain)

variable {b : Binarizer κ} {m : Markovization} {P : Rule κ → Prop}

/-- A binarizer of a certain order keeps the chains of rules with a property, each under the
identity of its rule. -/
structure Keeps (b : Binarizer κ) (m : Markovization) (P : Rule κ → Prop) : Prop where
  /-- The order. -/
  order : b.order = m
  /-- A chain that is kept is that of such a rule. -/
  kept : ∀ {key : RuleKey} {chain : List (Rule κ)}, b.memo.find? key = some chain →
    ∃ rule : Rule κ, P rule ∧ rule.key = key ∧ chain = m.chain rule

/-- A binarizer that has made no chain yet keeps none. -/
theorem keeps_new (m : Markovization) (P : Rule κ → Prop) : (new m).Keeps m P :=
  ⟨rfl, fun h => absurd h nofun⟩

/-- What a binarizer keeps after a rule, if the rule has the property. -/
theorem Keeps.binarize (h : b.Keeps m P) {rule : Rule κ} (hrule : P rule) :
    (b.binarize rule).1.Keeps m P := by
  unfold Binarizer.binarize
  split
  · exact h
  · split
    · exact h
    · refine ⟨h.order, fun {key chain} hfound => ?_⟩
      -- The new chain is that of the rule at hand; the others have been kept before.
      by_cases hkey : key = rule.key
      · subst hkey
        rw [OrderedMap.find?_insert_self, h.order] at hfound
        exact ⟨rule, hrule, rfl, (Option.some.inj hfound).symm⟩
      · rw [OrderedMap.find?_insert_of_ne _ hkey] at hfound
        exact h.kept hfound

/-- What a binarizer keeps after rules with the property. -/
theorem Keeps.binarizeAll (h : b.Keeps m P) {rules : List (Rule κ)}
    (hrules : ∀ rule ∈ rules, P rule) : (b.binarizeAll rules).1.Keeps m P := by
  induction rules generalizing b with
  | nil => exact h
  | cons rule rest ih =>
    exact ih (h.binarize (hrules rule List.mem_cons_self)) fun other ho =>
      hrules other (List.mem_cons_of_mem rule ho)

/-- A rule with more than two symbols on the right is given its own chain, or, with its own mark of
the root, that of a rule with the same texts that has been kept. -/
theorem Keeps.exists_chain (h : b.Keeps m P) {rule : Rule κ} (hsize : 2 < rule.rhs.size) :
    ∃ other : Rule κ, (other = rule ∨ P other) ∧ other.key = rule.key ∧
      (b.binarize rule).2 = withTop rule.top (m.chain other) := by
  unfold Binarizer.binarize
  rw [if_neg (Nat.not_le_of_gt hsize)]
  split
  · rename_i chain hfound
    obtain ⟨other, hother, hkey, rfl⟩ := h.kept hfound
    exact ⟨other, Or.inr hother, hkey, rfl⟩
  · rw [h.order]
    exact ⟨rule, Or.inl rfl, rfl, (withTop_chain m rfl rfl).symm⟩

/-- A binarizer that has made no chain yet gives the pieces of any rule. -/
theorem binarize_new (m : Markovization) (rule : Rule κ) :
    ((new m).binarize rule).2 = m.pieces rule := by
  unfold Binarizer.binarize pieces
  split <;> rfl

/-- A binarizer that keeps the chains of plain rules gives the pieces of a plain rule. -/
theorem Keeps.binarize_eq_pieces (h : b.Keeps m Rule.Plain) {rule : Rule κ} (hrule : rule.Plain) :
    (b.binarize rule).2 = m.pieces rule := by
  by_cases hsize : 2 < rule.rhs.size
  · -- What is kept was made of a rule with the same texts, and so with the same sides.
    obtain ⟨other, hother, hkey, hchain⟩ := h.exists_chain hsize
    have hplain : other.Plain := hother.elim (fun hsame => hsame ▸ hrule) id
    obtain ⟨hlhs, hrhs⟩ := hplain.sides_eq hrule hkey
    rw [hchain, withTop_chain m hlhs hrhs, Markovization.pieces_of_lt_size hsize]
  · have hle : rule.rhs.size ≤ 2 := Nat.le_of_not_lt hsize
    rw [Binarizer.binarize, if_pos hle, Markovization.pieces_of_size_le hle]

/-- A binarizer that keeps the chains of plain rules gives the pieces of plain rules. -/
theorem Keeps.binarizeAll_eq_pieces (h : b.Keeps m Rule.Plain) {rules : List (Rule κ)}
    (hrules : ∀ rule ∈ rules, rule.Plain) :
    (b.binarizeAll rules).2 = rules.flatMap m.pieces := by
  induction rules generalizing b with
  | nil => rfl
  | cons rule rest ih =>
    have hrule := hrules rule List.mem_cons_self
    have hrest := ih (h.binarize hrule) fun r hr => hrules r (List.mem_cons_of_mem _ hr)
    rw [Binarizer.binarizeAll, List.flatMap_cons, ← h.binarize_eq_pieces hrule, ← hrest]

end Binarizer

end Constituency
