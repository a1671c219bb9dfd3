import Constituency.Proofs.Except
import Constituency.Proofs.Tree.Tokens

/-!
# The language of trees in brackets

Tokens denote a tree (`Denotes`) if they are a label and at least one item between parentheses,
where an item is a word or denotes a tree itself, or if they denote that tree inside one more pair
of parentheses. The reader accepts exactly the texts whose tokens denote a tree, and reads that
tree.

Where tokens stand only matters to the positions in errors, so the reader is examined on tokens
without positions (`readAll`). Tokens that denote a tree are read as a whole, whatever follows
(`readAll_of_denotes`), by induction on how they denote it. The other way around, what is read
inside an open node is items up to the parenthesis that closes it (`readInside_of_readAll`), by
induction on the number of tokens.
-/

namespace Constituency.Tree

/-! ## Tokens that denote a tree -/

mutual

/-- Tokens denote a tree. -/
inductive Denotes : List Token → Tree → Prop
  /-- A label and at least one item between parentheses denote a node. -/
  | node {label : String} {ts : List Token} {items : List Tree} (nonempty : items ≠ [])
      (inside : DenoteAll ts items) :
      Denotes (.opening :: .word label :: (ts ++ [.closing])) (node label items)
  /-- One more pair of parentheses does not change the tree. -/
  | wrapper {ts : List Token} {t : Tree} (inside : Denotes ts t) :
      Denotes (.opening :: (ts ++ [.closing])) t

/-- Tokens denote items one after the other. -/
inductive DenoteAll : List Token → List Tree → Prop
  /-- No tokens denote no items. -/
  | nil : DenoteAll [] []
  /-- An item that is no single word. -/
  | tree {ts rest : List Token} {t : Tree} {items : List Tree} (first : Denotes ts t)
      (others : DenoteAll rest items) : DenoteAll (ts ++ rest) (t :: items)
  /-- An item that is a word denotes a leaf. -/
  | word {word : String} {rest : List Token} {items : List Tree} (others : DenoteAll rest items) :
      DenoteAll (.word word :: rest) (leaf word :: items)

end

/-- Tokens that denote a tree begin with a parenthesis. -/
theorem Denotes.exists_opening {ts : List Token} {t : Tree} (h : Denotes ts t) :
    ∃ rest, ts = .opening :: rest := by
  cases h with
  | node _ _ => exact ⟨_, rfl⟩
  | wrapper _ => exact ⟨_, rfl⟩

/-- A single item that begins with a parenthesis is no word. -/
theorem denotes_of_denoteAll_singleton {ts : List Token} {t : Tree} (h : DenoteAll ts [t])
    (hopening : ∃ rest, ts = .opening :: rest) : Denotes ts t := by
  obtain ⟨rest, rfl⟩ := hopening
  generalize hts : Token.opening :: rest = ts at h
  cases h with
  | tree first others =>
    cases others
    rw [List.append_nil]
    exact first
  | word others => exact absurd hts nofun

/-- A tree that tokens denote is no single word. -/
theorem Denotes.isLeaf_eq_false {ts : List Token} {t : Tree} (h : Denotes ts t) :
    t.isLeaf = false :=
  match h with
  | .node nonempty _ => List.isEmpty_eq_false_iff.2 nonempty
  | .wrapper inside => inside.isLeaf_eq_false

/-! ## Reading tokens without their positions -/

/-- An error without the position that it names. -/
def ReadError.unplaced : ReadError → ReadError
  | .empty => .empty
  | .unbalanced _ => .unbalanced 0
  | .missingLabel _ => .missingLabel 0
  | .noChildren label => .noChildren label
  | .trailingInput _ => .trailingInput 0

/-- Reads tokens inside the open nodes as if all of them stood at the start of the text. -/
def readAll (nodes : List OpenNode) (ts : List Token) : Except ReadError Tree :=
  readTokens 0 nodes (ts.map fun token => ⟨0, token⟩)

/-- What is read after a tree has been closed inside the open nodes: it becomes a child of the
innermost one, and if there is none, nothing may follow. -/
def resume (nodes : List OpenNode) (t : Tree) (rest : List Token) : Except ReadError Tree :=
  match nodes, rest with
  | [], [] => .ok t
  | [], _ :: _ => .error (.trailingInput 0)
  | outer :: nodes, rest => readAll (outer.push t :: nodes) rest

/-- A parenthesis before a label opens a node. -/
theorem readAll_opening_word (nodes : List OpenNode) (label : String) (rest : List Token) :
    readAll nodes (.opening :: .word label :: rest) = readAll (⟨some label, []⟩ :: nodes) rest := by
  simp only [readAll, List.map_cons, readTokens]

/-- A parenthesis before another one opens a wrapper. -/
theorem readAll_opening_opening (nodes : List OpenNode) (rest : List Token) :
    readAll nodes (.opening :: .opening :: rest) =
      readAll (⟨none, []⟩ :: nodes) (.opening :: rest) := by
  simp only [readAll, List.map_cons, readTokens]

/-- A word inside an open node is a child of it. -/
theorem readAll_word (inner : OpenNode) (nodes : List OpenNode) (text : String)
    (rest : List Token) :
    readAll (inner :: nodes) (.word text :: rest) =
      readAll (inner.push (leaf text) :: nodes) rest := by
  simp only [readAll, List.map_cons, readTokens]

/-- A parenthesis that closes an open node makes a tree of it. -/
theorem readAll_closing (inner : OpenNode) (nodes : List OpenNode) (rest : List Token) :
    readAll (inner :: nodes) (.closing :: rest) = (inner.close 0 >>= (resume nodes · rest)) := by
  match hclose : inner.close 0, nodes, rest with
  | .error _, [], _ => simp only [readAll, List.map_cons, readTokens, hclose]; rfl
  | .error _, _ :: _, _ => simp only [readAll, List.map_cons, readTokens, hclose]; rfl
  | .ok _, [], [] => simp only [readAll, List.map_cons, List.map_nil, readTokens, hclose]; rfl
  | .ok _, [], _ :: _ => simp only [readAll, List.map_cons, readTokens, hclose]; rfl
  | .ok _, _ :: _, _ => simp only [readAll, List.map_cons, readTokens, hclose]; rfl

/-- A node that cannot be closed at one position cannot be closed at another for the same reason. -/
theorem close_mapError_unplaced (inner : OpenNode) (position : Nat) :
    (inner.close position).mapError ReadError.unplaced = inner.close 0 := by
  unfold OpenNode.close
  split <;> rfl

/-- Where the tokens stand does not matter to what is read, positions in errors apart. -/
theorem readTokens_mapError_unplaced (size : Nat) (nodes : List OpenNode) (placed : List Placed) :
    (readTokens size nodes placed).mapError ReadError.unplaced =
      readAll nodes (placed.map Placed.token) := by
  fun_induction readTokens size nodes placed with
  | case1 => rfl
  | case2 nodes _ _ label rest ih => exact ih
  | case3 nodes _ next rest ih => exact ih
  | case4 nodes position rest hword hopening =>
    rcases rest with - | ⟨⟨_, _ | _ | _⟩, _⟩
    · rfl
    · exact absurd rfl (hopening _ _)
    · rfl
    · exact absurd rfl (hword _ _ _)
  | case5 => rfl
  | case6 inner position _ _ hclose
  | case7 inner position _ hclose
  | case8 inner position _ _ _ _ hclose
  | case9 inner _ _ position _ _ hclose =>
    rw [List.map_cons, readAll_closing, ← close_mapError_unplaced inner position, hclose]
    rfl
  | case10 inner outer nodes position rest t hclose ih =>
    rw [List.map_cons, readAll_closing, ← close_mapError_unplaced inner position, hclose]
    exact ih
  | case11 => rfl
  | case12 inner nodes _ text rest ih => exact ih

/-! ## What denotes a tree is read -/

/-- Trees that are added to an open node one after the other are its last children. -/
theorem foldl_push (inner : OpenNode) (ts : List Tree) :
    ts.foldl OpenNode.push inner = ⟨inner.label, ts.reverse ++ inner.children⟩ := by
  induction ts generalizing inner with
  | nil => rfl
  | cons t ts ih =>
    rw [List.foldl_cons, ih, List.reverse_cons, List.append_assoc]
    rfl

/-- The trees that an open node with a label is closed to: at least one child has been added. -/
theorem close_foldl_push_label {label : String} {items : List Tree} {position : Nat} {t : Tree} :
    (items.foldl OpenNode.push ⟨some label, []⟩).close position = .ok t ↔
      items ≠ [] ∧ node label items = t := by
  rw [foldl_push, List.append_nil]
  cases hreverse : items.reverse with
  | nil =>
    obtain rfl := List.reverse_eq_nil_iff.1 hreverse
    exact ⟨nofun, fun h => absurd rfl h.1⟩
  | cons last before =>
    have hitems : items = (last :: before).reverse := by rw [← hreverse, List.reverse_reverse]
    have hne : items ≠ [] := mt List.reverse_eq_nil_iff.2 (hreverse ▸ List.cons_ne_nil last before)
    rw [OpenNode.close, ← hitems, Except.ok.injEq]
    · exact (and_iff_right hne).symm
    · exact List.cons_ne_nil last before

/-- The trees that a wrapper is closed to: its only child. -/
theorem close_foldl_push_wrapper {items : List Tree} {position : Nat} {t : Tree} :
    (items.foldl OpenNode.push ⟨none, []⟩).close position = .ok t ↔ items = [t] := by
  have hreverse : items.reverse = [t].reverse ↔ items = [t] := List.reverse_inj
  rw [foldl_push, List.append_nil, ← hreverse, List.reverse_singleton]
  match items.reverse with
  | [] => exact ⟨nofun, nofun⟩
  | [only] => rw [OpenNode.close, Except.ok.injEq, List.singleton_inj]
  | _ :: _ :: _ => exact ⟨nofun, nofun⟩

mutual

/-- Tokens that denote a tree are read as that tree, whatever is open and whatever follows. -/
theorem readAll_of_denotes {ts : List Token} {t : Tree} :
    Denotes ts t → ∀ nodes rest, readAll nodes (ts ++ rest) = resume nodes t rest
  | @Denotes.node label ts items nonempty inside => fun nodes rest => by
    calc readAll nodes (.opening :: .word label :: (ts ++ [.closing]) ++ rest)
        = readAll (⟨some label, []⟩ :: nodes) (ts ++ .closing :: rest) := by
          rw [List.cons_append, List.cons_append, List.append_assoc, readAll_opening_word]
          rfl
      _ = readAll (items.foldl OpenNode.push ⟨some label, []⟩ :: nodes) (.closing :: rest) :=
          readAll_of_denoteAll inside _ nodes _
      _ = resume nodes (node label items) rest := by
          rw [readAll_closing, close_foldl_push_label.2 ⟨nonempty, rfl⟩]
          rfl
  | @Denotes.wrapper ts t inside => fun nodes rest => by
    obtain ⟨after, hts⟩ := inside.exists_opening
    calc readAll nodes (.opening :: (ts ++ [.closing]) ++ rest)
        = readAll (⟨none, []⟩ :: nodes) (ts ++ .closing :: rest) := by
          rw [List.cons_append, List.append_assoc, hts, List.cons_append, readAll_opening_opening]
          rfl
      _ = readAll (⟨none, [t]⟩ :: nodes) (.closing :: rest) := readAll_of_denotes inside _ _
      _ = resume nodes t rest := by
          rw [readAll_closing]
          rfl

/-- Tokens that denote items are read as children of the node that is open. -/
theorem readAll_of_denoteAll {ts : List Token} {items : List Tree} :
    DenoteAll ts items → ∀ inner nodes rest,
      readAll (inner :: nodes) (ts ++ rest) =
        readAll (items.foldl OpenNode.push inner :: nodes) rest
  | .nil => fun _ _ _ => rfl
  | .tree first others => fun inner nodes rest => by
    rw [List.append_assoc, readAll_of_denotes first, List.foldl_cons]
    exact readAll_of_denoteAll others _ nodes rest
  | .word others => fun inner nodes rest => by
    rw [List.cons_append, readAll_word, List.foldl_cons]
    exact readAll_of_denoteAll others _ nodes rest

end

/-! ## What is read denotes a tree -/

/-- Inside an open node, tokens have been read as items, as the parenthesis that closes the node,
and as whatever is read after it. -/
inductive ReadInside (inner : OpenNode) (nodes : List OpenNode) (t : Tree) : List Token → Prop
  /-- The items, the tree that the node is closed to, and what follows. -/
  | intro {body rest : List Token} {items : List Tree} {closed : Tree}
      (inside : DenoteAll body items)
      (close : (items.foldl OpenNode.push inner).close 0 = .ok closed)
      (after : resume nodes closed rest = .ok t) :
      ReadInside inner nodes t (body ++ .closing :: rest)

/-- One more item before what has been read inside an open node. -/
theorem ReadInside.tree {inner : OpenNode} {nodes : List OpenNode} {t u : Tree}
    {ts rest : List Token} (first : Denotes ts u) (h : ReadInside (inner.push u) nodes t rest) :
    ReadInside inner nodes t (ts ++ rest) := by
  obtain ⟨inside, close, after⟩ := h
  rw [← List.append_assoc]
  exact .intro (.tree first inside) close after

/-- One more word before what has been read inside an open node. -/
theorem ReadInside.word {inner : OpenNode} {nodes : List OpenNode} {t : Tree} {word : String}
    {rest : List Token} (h : ReadInside (inner.push (leaf word)) nodes t rest) :
    ReadInside inner nodes t (.word word :: rest) := by
  obtain ⟨inside, close, after⟩ := h
  exact .intro (.word inside) close after

/-- What begins with a parenthesis denotes a tree up to somewhere, if what is read inside a node is
items up to the parenthesis that closes it. -/
theorem exists_denotes_of_readAll {nodes : List OpenNode} {ts : List Token} {t : Tree}
    (hinside : ∀ inner rest, rest.length ≤ ts.length → readAll (inner :: nodes) rest = .ok t →
      ReadInside inner nodes t rest)
    (h : readAll nodes (.opening :: ts) = .ok t) :
    ∃ first u rest, .opening :: ts = first ++ rest ∧ Denotes first u ∧
      resume nodes u rest = .ok t := by
  match ts with
  | .word label :: ts =>
    rw [readAll_opening_word] at h
    obtain @⟨body, rest, items, closed, inside, close, after⟩ := hinside _ ts (Nat.le_succ _) h
    obtain ⟨hne, rfl⟩ := close_foldl_push_label.1 close
    refine ⟨_, _, rest, ?_, .node hne inside, after⟩
    rw [List.cons_append, List.cons_append, List.append_assoc, List.singleton_append]
  | .opening :: ts =>
    rw [readAll_opening_opening] at h
    have hread := hinside _ _ le_rfl h
    generalize hts : Token.opening :: ts = within at hread
    obtain @⟨body, rest, items, closed, inside, close, after⟩ := hread
    obtain rfl := close_foldl_push_wrapper.1 close
    -- A parenthesis closes nothing right after another one that opens, so the item begins there.
    have hopening : ∃ others, body = .opening :: others := by
      cases body with
      | nil => exact absurd hts nofun
      | cons token others => exact ⟨others, by rw [(List.cons.inj hts).1]⟩
    refine ⟨_, _, rest, ?_, .wrapper (denotes_of_denoteAll_singleton inside hopening), after⟩
    rw [List.cons_append, List.append_assoc, List.singleton_append]
  | .closing :: ts => exact absurd h nofun
  | [] => exact absurd h nofun

/-- What is read inside an open node is items, the parenthesis that closes it, and what follows. -/
theorem readInside_of_readAll {inner : OpenNode} {nodes : List OpenNode} {ts : List Token}
    {t : Tree} (h : readAll (inner :: nodes) ts = .ok t) : ReadInside inner nodes t ts := by
  match ts with
  | [] => exact absurd h nofun
  | .closing :: rest =>
    rw [readAll_closing, bind_eq_ok_iff] at h
    obtain ⟨closed, hclose, hafter⟩ := h
    exact @ReadInside.intro inner nodes t [] rest [] closed .nil hclose hafter
  | .word word :: rest =>
    rw [readAll_word] at h
    exact (readInside_of_readAll h).word
  | .opening :: ts =>
    obtain ⟨first, u, rest, hall, hdenotes, hafter⟩ :=
      exists_denotes_of_readAll (fun _ _ hle hread => readInside_of_readAll hread) h
    -- The item begins with a parenthesis, so fewer tokens follow it.
    obtain ⟨others, rfl⟩ := hdenotes.exists_opening
    have hshorter : rest.length < (Token.opening :: ts).length := by
      rw [hall, List.length_append]
      exact Nat.lt_add_of_pos_left (Nat.succ_pos _)
    rw [hall]
    exact (readInside_of_readAll hafter).tree hdenotes
termination_by ts.length
decreasing_by
  all_goals
    simp only [List.length_cons] at *
    omega

/-- Tokens are read as a tree if and only if they denote it. -/
theorem readAll_nil_eq_ok_iff {ts : List Token} {t : Tree} :
    readAll [] ts = .ok t ↔ Denotes ts t := by
  constructor
  · intro h
    match ts with
    | [] => exact absurd h nofun
    | .closing :: _ => exact absurd h nofun
    | .word _ :: _ => exact absurd h nofun
    | .opening :: ts =>
      obtain ⟨first, u, rest, hall, hdenotes, hafter⟩ :=
        exists_denotes_of_readAll (fun _ _ _ hread => readInside_of_readAll hread) h
      cases rest with
      | nil =>
        obtain rfl := Except.ok.inj hafter
        rw [hall, List.append_nil]
        exact hdenotes
      | cons _ _ => exact absurd hafter nofun
  · intro h
    have hread := readAll_of_denotes h [] []
    rw [List.append_nil] at hread
    exact hread

/-- Tokens denote at most one tree. -/
theorem Denotes.unique {ts : List Token} {t u : Tree} (ht : Denotes ts t) (hu : Denotes ts u) :
    t = u :=
  Except.ok.inj ((readAll_nil_eq_ok_iff.2 ht).symm.trans (readAll_nil_eq_ok_iff.2 hu))

/-! ## Reading texts -/

/-- A text is read as its tokens are, positions in errors apart; a text without tokens is empty. -/
theorem read_mapError_unplaced (text : String) :
    (read text).mapError ReadError.unplaced =
      match tokensOf text.toList with
      | [] => .error .empty
      | token :: rest => readAll [] (token :: rest) := by
  have htokens : tokensOf text.toList = (tokens text).map Placed.token := rfl
  rw [htokens, read]
  cases tokens text with
  | nil => rfl
  | cons placed rest => exact readTokens_mapError_unplaced text.utf8ByteSize [] (placed :: rest)

/-- A text is read as a tree if and only if its tokens denote it. -/
theorem read_eq_ok_iff {text : String} {t : Tree} :
    read text = .ok t ↔ Denotes (tokensOf text.toList) t := by
  have hunplaced : (read text).mapError ReadError.unplaced = .ok t ↔ read text = .ok t :=
    mapError_eq_ok_iff
  rw [← hunplaced, read_mapError_unplaced]
  cases tokensOf text.toList with
  | nil =>
    constructor
    · exact nofun
    · intro h
      obtain ⟨_, hnil⟩ := h.exists_opening
      exact absurd hnil nofun
  | cons token rest => exact readAll_nil_eq_ok_iff

/-- Texts with the same tokens are read alike, positions in errors apart. -/
theorem read_congr {text other : String} (h : tokensOf text.toList = tokensOf other.toList) :
    (read text).mapError ReadError.unplaced = (read other).mapError ReadError.unplaced := by
  rw [read_mapError_unplaced, read_mapError_unplaced, h]

/-- A text is cut into tokens in one way, and it is read as a tree if and only if these tokens
denote that tree. What the reader makes of it, positions in errors apart, depends on its tokens
only; a tree that it reads is no single word, and none of its labels is empty. -/
theorem read_iff_denotes (text : String) :
    ∃ ts, (∀ others, Cut text.toList others ↔ others = ts) ∧
      (∀ t, read text = .ok t ↔ Denotes ts t) ∧
      (∀ other : String, Cut other.toList ts →
        (read other).mapError ReadError.unplaced = (read text).mapError ReadError.unplaced) ∧
      ∀ t, read text = .ok t → t.isLeaf = false ∧ t.AllLabels (· ≠ "") := by
  refine ⟨tokensOf text.toList, fun others => ?_, fun t => read_eq_ok_iff, fun other hcut => ?_,
    fun t ht => ⟨(read_eq_ok_iff.1 ht).isLeaf_eq_false, ?_⟩⟩
  · rw [cut_iff]
    exact eq_comm
  · exact read_congr (cut_iff.1 hcut)
  · refine (areAtoms_of_read ht).mono fun label hlabel hempty => hlabel.ne_nil ?_
    rw [hempty]
    rfl

/-- A sentence inside two wrappers, with a word beside a phrase, is such a text. -/
theorem read_iff_denotes_dogsBark :
    read "( ((S (NP dogs)\nbark)))" = .ok (.node "S" [.node "NP" [leaf "dogs"], leaf "bark"]) ∧
      Denotes [.opening, .opening, .opening, .word "S", .opening, .word "NP", .word "dogs",
        .closing, .word "bark", .closing, .closing, .closing]
        (.node "S" [.node "NP" [leaf "dogs"], leaf "bark"]) := by
  have hread : read "( ((S (NP dogs)\nbark)))" =
      .ok (.node "S" [.node "NP" [leaf "dogs"], leaf "bark"]) := rfl
  obtain ⟨ts, hcut, hdenotes, -, -⟩ := read_iff_denotes "( ((S (NP dogs)\nbark)))"
  obtain rfl := (hcut _).1 (cut_iff.2 rfl)
  exact ⟨hread, (hdenotes _).1 hread⟩

end Constituency.Tree
