import Constituency.Proofs.Cost
import Constituency.Proofs.Training

/-!
# The rules of a tree as a leftmost derivation

A tree passes the check exactly if every node of it does (`shaped_iff_nodes`), and its rules are
those of its nodes that are no words, in pre-order (`rulesFrom_eq_map`). This is the order in which
a leftmost derivation expands symbols, so a derivation that goes through the rules rebuilds the tree
(`derive_rulesFrom`). What a derivation builds is settled by the symbols that it starts from, by
what stands on the right of its rules and by which of them are lexical (`derive_unique`): two trees
with the same rules are the same tree.
-/

namespace Constituency

variable {κ : Type}

namespace Tree

/-! ## The shape of every node -/

/-- A tree has the right shape exactly if it is no word and every node of it that is no word stands
over nodes that are no words, or over one word. -/
theorem shaped_iff_nodes {t : Tree} :
    t.Shaped ↔ t.isLeaf = false ∧ ∀ u ∈ t.nodes, u.isLeaf = false →
      (∀ c ∈ u.children, c.isLeaf = false) ∨ ∃ word, u.children = [leaf word] := by
  constructor
  · exact fun h => ⟨h.isLeaf, fun u hu hleaf => (h.subtree (mem_nodes.1 hu) hleaf).children⟩
  · rintro ⟨hleaf, hnodes⟩
    induction t using Tree.induction with
    | node label children ih =>
      rcases hnodes _ (self_mem_nodes _) hleaf with hnone | ⟨word, hword⟩
      · refine .internal (List.isEmpty_eq_false_iff.1 hleaf) fun c hc => ih c hc (hnone c hc) ?_
        exact fun u hu => hnodes u (mem_nodes_node.2 (Or.inr ⟨c, hc, hu⟩))
      · obtain rfl : children = [leaf word] := hword
        exact .preTerminal

/-! ## The rules in pre-order -/

/-- The nodes of a tree that are no words, in pre-order. -/
def innerNodes (t : Tree) : List Tree := t.nodes.filter fun u => !u.isLeaf

/-- The nodes that are no words are the root, if it is no word, and those of its children. -/
theorem innerNodes_node {label : String} {children : List Tree} (hne : children ≠ []) :
    (node label children).innerNodes =
      node label children :: children.flatMap innerNodes := by
  have hleaf : (node label children).isLeaf = false := List.isEmpty_eq_false_iff.2 hne
  rw [innerNodes, nodes, nodesOfAll_eq_flatMap, List.filter_cons, hleaf, Bool.not_false,
    if_pos rfl, List.filter_flatMap]
  rfl

section Rules

variable [Cost κ]

/-- The rules of a tree below a root are those of its nodes that are no words. -/
theorem rulesFrom_false_eq_map (t : Tree) :
    (t.rulesFrom false : List (Rule κ)) = t.innerNodes.map (ruleAt false) := by
  induction t using Tree.induction with
  | node label children ih =>
    by_cases hnil : children = []
    · subst hnil
      rfl
    · rw [rulesFrom_node hnil, innerNodes_node hnil, List.map_cons, List.map_flatMap]
      exact congrArg _ (List.flatMap_congr ih)

/-- The rules of nodes that do not stand first bear no mark. -/
theorem map_ruleAt_zipIdx_succ (us : List Tree) (place : Nat) :
    ((us.zipIdx (place + 1)).map fun entry => (ruleAt (entry.2 == 0) entry.1 : Rule κ)) =
      us.map (ruleAt false) := by
  induction us generalizing place with
  | nil => rfl
  | cons u rest ih =>
    rw [List.zipIdx_cons, List.map_cons, ih, List.map_cons]
    rfl

/-- The rules of a tree are those of its nodes that are no words, and that of the root, which stands
first, bears the mark. -/
theorem rulesFrom_eq_map (t : Tree) :
    (t.rulesFrom true : List (Rule κ)) =
      t.innerNodes.zipIdx.map fun entry => ruleAt (entry.2 == 0) entry.1 := by
  obtain ⟨label, children⟩ := t
  by_cases hnil : children = []
  · subst hnil
    rfl
  · have hbelow : (children.flatMap (rulesFrom false) : List (Rule κ)) =
        (children.flatMap innerNodes).map (ruleAt false) := by
      rw [List.map_flatMap]
      exact List.flatMap_congr fun c _ => rulesFrom_false_eq_map c
    rw [rulesFrom_node hnil, innerNodes_node hnil, List.zipIdx_cons, List.map_cons,
      map_ruleAt_zipIdx_succ, hbelow]
    rfl

end Rules

/-! ## Leftmost derivations -/

/-- The trees that a leftmost derivation builds for the symbols that wait for expansion. Each rule
expands the first of them: a lexical rule puts its words below it, and the symbols of any other rule
have to be expanded next, into its children. There are none if a rule does not rewrite the symbol,
or if there are not as many rules as are needed. -/
def derive : (pending : List String) → (rules : List (Rule κ)) → Option (List Tree)
  | [], [] => some []
  | symbol :: pending, rule :: rules =>
    if rule.lhs = Side.single symbol then
      if rule.lexical then
        (derive pending rules).map fun trees => node symbol (rule.rhs.symbols.map leaf) :: trees
      else
        (derive (rule.rhs.symbols ++ pending) rules).map fun trees =>
          node symbol (trees.take rule.rhs.size) :: trees.drop rule.rhs.size
    else none
  | _, _ => none

/-- A lexical rule puts its words below the symbol. -/
theorem derive_of_lexical {rule : Rule κ} {symbol : String} (hlhs : rule.lhs = Side.single symbol)
    (hlexical : rule.lexical = true) (pending : List String) (rules : List (Rule κ)) :
    derive (symbol :: pending) (rule :: rules) =
      (derive pending rules).map (node symbol (rule.rhs.symbols.map leaf) :: ·) := by
  rw [derive, if_pos hlhs, if_pos hlexical]

/-- Any other rule puts the trees of its symbols below the symbol. -/
theorem derive_of_syntactic {rule : Rule κ} {symbol : String} (hlhs : rule.lhs = Side.single symbol)
    (hlexical : rule.lexical = false) (pending : List String) (rules : List (Rule κ)) :
    derive (symbol :: pending) (rule :: rules) =
      (derive (rule.rhs.symbols ++ pending) rules).map fun trees =>
        node symbol (trees.take rule.rhs.size) :: trees.drop rule.rhs.size := by
  rw [derive, if_pos hlhs, hlexical, if_neg Bool.false_ne_true]

/-- The rules of trees, replayed from the labels of the trees, rebuild them, if the rules of each
tree do. -/
theorem derive_flatMap [Cost κ] {ts : List Tree}
    (h : ∀ t ∈ ts, ∀ pending (rules : List (Rule κ)),
      derive (t.label :: pending) (t.rulesFrom false ++ rules) =
        (derive pending rules).map (t :: ·))
    (pending : List String) (rules : List (Rule κ)) :
    derive (ts.map label ++ pending) (ts.flatMap (rulesFrom false) ++ rules) =
      (derive pending rules).map (ts ++ ·) := by
  induction ts with
  | nil => exact Option.map_id'.symm
  | cons t rest ih =>
    rw [List.map_cons, List.cons_append, List.flatMap_cons, List.append_assoc,
      h t List.mem_cons_self, ih fun u hu => h u (List.mem_cons_of_mem t hu), Option.map_map]
    rfl

/-- The rules of a tree of the right shape, replayed from its label, rebuild it, whatever has to be
expanded after it. -/
theorem derive_rulesFrom [Cost κ] {t : Tree} (h : t.Shaped) (top : Bool) (pending : List String)
    (rules : List (Rule κ)) :
    derive (t.label :: pending) (t.rulesFrom top ++ rules) =
      (derive pending rules).map (t :: ·) := by
  induction h generalizing top pending rules with
  | preTerminal => exact derive_of_lexical rfl rfl pending rules
  | @internal label children ne below ih =>
    have hlexical : (ruleAt top (node label children) : Rule κ).lexical = false := by
      match children, below with
      | [], _ => rfl
      | [c], below => exact (below c List.mem_cons_self).isLeaf
      | _ :: _ :: _, _ => rfl
    have hroot := derive_of_syntactic rfl hlexical pending
      (children.flatMap (rulesFrom false) ++ rules)
    have hbelow := derive_flatMap (fun c hc => ih c hc false) pending rules
    have hsize : (ruleAt top (node label children) : Rule κ).rhs.size = children.length :=
      List.length_map _
    calc derive (label :: pending) ((node label children).rulesFrom top ++ rules)
        = (derive (children.map Tree.label ++ pending)
            (children.flatMap (rulesFrom false) ++ rules)).map fun trees =>
              node label (trees.take children.length) :: trees.drop children.length := by
          rw [rulesFrom_node ne, List.cons_append, ← hsize]
          exact hroot
      _ = ((derive pending rules).map (children ++ ·)).map fun trees =>
            node label (trees.take children.length) :: trees.drop children.length := by
          rw [hbelow]
      _ = (derive pending rules).map (node label children :: ·) := by
          rw [Option.map_map]
          congr 1
          funext trees
          rw [Function.comp_apply, List.take_left, List.drop_left]

/-- The rules of a tree that has them, replayed from its label, rebuild the tree, and the first of
them rewrites the label. -/
theorem derive_of_rules [Cost κ] {t : Tree} {rules : List (Rule κ)} (h : t.rules = .ok rules) :
    derive [t.label] rules = some [t] ∧ rules.head?.map (·.lhs.text) = some t.label := by
  obtain ⟨hvalid, rfl⟩ := rules_eq_ok_iff.1 h
  have hshaped := shaped_of_validate hvalid
  constructor
  · have hderive := derive_rulesFrom (κ := κ) hshaped true [] []
    rwa [List.append_nil] at hderive
  · obtain ⟨label, children⟩ := t
    have hne : children ≠ [] := List.isEmpty_eq_false_iff.1 hshaped.isLeaf
    rw [rulesFrom_node hne, List.head?_cons, Option.map_some, ruleAt, Side.text_single]

end Tree

/-- What a rule has on the right, and whether this is a word. -/
def Rule.expansion (rule : Rule κ) : List String × Bool := (rule.rhs.symbols, rule.lexical)

/-- Two derivations that start from the same symbols and whose rules have the same on the right
build the same trees. -/
theorem Tree.derive_unique {pending : List String} {rules others : List (Rule κ)}
    (h : rules.map Rule.expansion = others.map Rule.expansion) {trees trees' : List Tree}
    (htrees : derive pending rules = some trees) (htrees' : derive pending others = some trees') :
    trees = trees' := by
  induction rules generalizing pending others trees trees' with
  | nil =>
    obtain rfl : others = [] := List.map_eq_nil_iff.1 h.symm
    exact Option.some.inj (htrees.symm.trans htrees')
  | cons rule rules ih =>
    cases others with
    | nil => exact absurd h (List.cons_ne_nil _ _)
    | cons other others =>
      obtain ⟨hexpansion, hrest⟩ := List.cons.inj h
      obtain ⟨hsymbols, hlexical⟩ := Prod.mk.inj hexpansion
      cases pending with
      | nil => exact absurd htrees.symm (Option.some_ne_none trees)
      | cons symbol pending =>
        rw [derive] at htrees htrees'
        split at htrees
        · split at htrees'
          · rw [Side.size, hsymbols, hlexical] at htrees
            cases hmark : other.lexical with
            | true =>
              rw [hmark, if_pos rfl] at htrees htrees'
              obtain ⟨below, hbelow, rfl⟩ := Option.map_eq_some_iff.1 htrees
              obtain ⟨below', hbelow', rfl⟩ := Option.map_eq_some_iff.1 htrees'
              rw [ih hrest hbelow hbelow']
            | false =>
              rw [hmark, if_neg Bool.false_ne_true] at htrees htrees'
              obtain ⟨below, hbelow, rfl⟩ := Option.map_eq_some_iff.1 htrees
              obtain ⟨below', hbelow', rfl⟩ := Option.map_eq_some_iff.1 htrees'
              rw [ih hrest hbelow hbelow']
              rfl
          · exact absurd htrees'.symm (Option.some_ne_none trees')
        · exact absurd htrees.symm (Option.some_ne_none trees)

/-- A tree passes the check exactly if it is no word and every node of it that is no word stands
over nodes that are no words, or over one word. Then, and only then, it has rules: one for each of
these nodes, in pre-order, which is lexical exactly at a part of speech and bears the mark exactly
at the root. A leftmost derivation that goes through the rules rebuilds the tree. So a tree is
settled by what its first rule rewrites, by what its rules have on the right and by which of them
are lexical. -/
theorem Tree.rules_rebuild [Cost κ] (t : Tree) :
    (t.validate = .ok () ↔ t.isLeaf = false ∧ ∀ u ∈ t.nodes, u.isLeaf = false →
      (∀ c ∈ u.children, c.isLeaf = false) ∨ ∃ word, u.children = [leaf word]) ∧
    (∀ rules : List (Rule κ), t.rules = .ok rules ↔ t.validate = .ok () ∧
      rules = t.innerNodes.zipIdx.map fun (u, place) =>
        ⟨Side.single u.label, ⟨u.children.map label⟩, 0, u.isPreTerminal, place == 0⟩) ∧
    ∀ rules : List (Rule κ), t.rules = .ok rules →
      derive [t.label] rules = some [t] ∧
      ∀ (other : Tree) (others : List (Rule κ)), other.rules = .ok others →
        rules.head?.map (·.lhs.text) = others.head?.map (·.lhs.text) →
        rules.map Rule.expansion = others.map Rule.expansion → t = other := by
  refine ⟨Tree.validate_eq_ok_iff.trans shaped_iff_nodes, fun rules => ?_, fun rules hrules => ?_⟩
  · rw [rules_eq_ok_iff, rulesFrom_eq_map]
    rfl
  · obtain ⟨hderive, hhead⟩ := derive_of_rules hrules
    refine ⟨hderive, fun other others hothers hsame hexpansion => ?_⟩
    obtain ⟨hderive', hhead'⟩ := derive_of_rules hothers
    -- Both derivations start from the same symbol, and they end in one tree each.
    have hlabel : t.label = other.label := by
      rw [hhead, hhead'] at hsame
      exact Option.some.inj hsame
    rw [← hlabel] at hderive'
    exact List.head_eq_of_cons_eq (derive_unique hexpansion hderive hderive')

/-- A noun that is its own word. -/
def namesake : Tree := .node "S" [.node "NN" [.leaf "NN"]]

/-- The rules of such a tree differ in their marks, which tell the word from the part of speech. -/
theorem Tree.rules_rebuild_namesake :
    let rules : List (Rule WholeCost) :=
      [⟨.single "S", ⟨["NN"]⟩, ⟨0⟩, false, true⟩, ⟨.single "NN", ⟨["NN"]⟩, ⟨0⟩, true, false⟩]
    namesake.rules = .ok rules ∧ derive ["S"] rules = some [namesake] ∧
      ∀ other : Tree, other.rules = .ok rules → namesake = other := by
  intro rules
  obtain ⟨-, hrules, hrebuild⟩ := Tree.rules_rebuild (κ := WholeCost) namesake
  have hok : namesake.rules = .ok rules := (hrules rules).2 ⟨rfl, by decide⟩
  obtain ⟨hderive, hunique⟩ := hrebuild rules hok
  exact ⟨hok, hderive, fun other hother => hunique other rules hother rfl rfl⟩

end Constituency
