import Constituency.Proofs.Text.Lines
import Constituency.Proofs.Tree.Nodes
import Constituency.Proofs.Tree.Printer

/-!
# Trees are read back from a treebank text

Inside a tree the scan of a treebank text goes on over any characters whose parentheses balance
(`Nested`), as those of the texts of trees do. So the text of a tree is found as one item
(`run_text`), and trees with blanks after them are read back in their order, with nothing rejected
(`read_joined`). In particular trees are read back from lines, one tree a line (`read_unlines`).
-/

namespace Constituency.Treebank

open Constituency.Tree (IsAtom IsPlain)

/-! ## Balanced parentheses -/

/-- The parentheses of some characters balance: inside a tree the scan takes all of the characters
and is then at the depth at which it was before. -/
def Nested (chars : List Char) : Prop :=
  ∀ (start depth : Nat) (taken : List Char) (position : Nat) (rest : List Char), 0 < depth →
    ∃ after, (Scan.inside start depth taken).run position (chars ++ rest) =
      (Scan.inside start depth (chars.reverse ++ taken)).run after rest

/-- Inside a tree, a parenthesis that opens leads one level down. -/
theorem run_inside_opening (start depth : Nat) (taken : List Char) (position : Nat)
    (rest : List Char) :
    (Scan.inside start depth taken).run position ('(' :: rest) =
      (Scan.inside start (depth + 1) ('(' :: taken)).run (position + '('.utf8Size) rest := rfl

/-- Inside a tree, a parenthesis that closes leads one level up, unless it closes the tree. -/
theorem run_inside_closing (start : Nat) {depth : Nat} (hdepth : 0 < depth) (taken : List Char)
    (position : Nat) (rest : List Char) :
    (Scan.inside start (depth + 1) taken).run position (')' :: rest) =
      (Scan.inside start depth (')' :: taken)).run (position + ')'.utf8Size) rest := by
  have hdeep : ¬ depth + 1 ≤ 1 := by omega
  simp only [Scan.run, Scan.step, Char.reduceEq, if_false, if_true, hdeep, Option.toList_none,
    List.nil_append, Nat.add_sub_cancel]

/-- Inside a tree, any other character is taken. -/
theorem run_inside_plain (start depth : Nat) (taken : List Char) (position : Nat) {c : Char}
    (hopening : c ≠ '(') (hclosing : c ≠ ')') (rest : List Char) :
    (Scan.inside start depth taken).run position (c :: rest) =
      (Scan.inside start depth (c :: taken)).run (position + c.utf8Size) rest := by
  simp only [Scan.run, Scan.step, hopening, hclosing, if_false, Option.toList_none,
    List.nil_append]

/-- Characters without parentheses balance. -/
theorem nested_of_plain {chars : List Char} (h : ∀ c ∈ chars, c ≠ '(' ∧ c ≠ ')') :
    Nested chars := by
  intro start depth taken position rest hdepth
  induction chars generalizing taken position with
  | nil => exact ⟨position, rfl⟩
  | cons c chars ih =>
    obtain ⟨hopening, hclosing⟩ := h c List.mem_cons_self
    obtain ⟨after, hrun⟩ := ih (fun d hd => h d (List.mem_cons_of_mem c hd)) (c :: taken)
      (position + c.utf8Size)
    refine ⟨after, ?_⟩
    rw [List.cons_append, run_inside_plain _ _ _ _ hopening hclosing, hrun, List.reverse_cons,
      List.append_assoc]
    rfl

/-- Characters that balance may follow each other. -/
theorem Nested.append {first second : List Char} (hfirst : Nested first) (hsecond : Nested second) :
    Nested (first ++ second) := by
  intro start depth taken position rest hdepth
  obtain ⟨middle, hrun⟩ := hfirst start depth taken position (second ++ rest) hdepth
  obtain ⟨after, hrun'⟩ := hsecond start depth (first.reverse ++ taken) middle rest hdepth
  refine ⟨after, ?_⟩
  rw [List.append_assoc, hrun, hrun', List.reverse_append, List.append_assoc]

/-- Characters that balance do so between parentheses. -/
theorem Nested.parenthesized {chars : List Char} (h : Nested chars) :
    Nested ('(' :: (chars ++ [')'])) := by
  intro start depth taken position rest hdepth
  obtain ⟨after, hrun⟩ := h start (depth + 1) ('(' :: taken) (position + '('.utf8Size)
    (')' :: rest) (Nat.succ_pos depth)
  refine ⟨after + ')'.utf8Size, ?_⟩
  have hlist : '(' :: (chars ++ [')']) ++ rest = '(' :: (chars ++ ')' :: rest) := by
    rw [List.cons_append, List.append_assoc]
    rfl
  rw [hlist, run_inside_opening, hrun, run_inside_closing start hdepth]
  simp only [List.reverse_cons, List.reverse_append, List.reverse_nil, List.nil_append,
    List.cons_append, List.append_assoc]

/-- Outside of any tree, characters that balance and stand between parentheses are a tree. -/
theorem Nested.run_parenthesized {chars : List Char} (h : Nested chars) (inStray : Bool)
    (position : Nat) (rest : List Char) :
    ∃ after, (Scan.outside inStray).run position ('(' :: (chars ++ ')' :: rest)) =
      .tree position (String.ofList ('(' :: (chars ++ [')']))) ::
        (Scan.outside false).run after rest := by
  obtain ⟨after, hrun⟩ := h position 1 ['('] (position + '('.utf8Size) (')' :: rest) Nat.one_pos
  have hopen : (Scan.outside inStray).run position ('(' :: (chars ++ ')' :: rest)) =
      (Scan.inside position 1 ['(']).run (position + '('.utf8Size) (chars ++ ')' :: rest) := rfl
  have hreverse : (')' :: (chars.reverse ++ ['('])).reverse = '(' :: (chars ++ [')']) := by
    simp only [List.reverse_cons, List.reverse_append, List.reverse_reverse, List.reverse_nil,
      List.nil_append, List.cons_append]
  refine ⟨after + ')'.utf8Size, ?_⟩
  rw [hopen, hrun]
  simp only [Scan.run, Scan.step, Char.reduceEq, if_false, if_true, Nat.le_refl,
    Option.toList_some, List.singleton_append, hreverse]

/-! ## The texts of trees -/

/-- A label has no parentheses, so it balances. -/
theorem nested_atom {label : String} (h : IsAtom label) : Nested label.toList :=
  nested_of_plain fun c hc => ⟨(h.plain c hc).opening, (h.plain c hc).closing⟩

/-- The texts of children balance if each of them does. -/
theorem nested_textOfAll {ts : List Tree} (h : ∀ t ∈ ts, Nested t.text.toList) :
    Nested (Tree.textOfAll ts).toList := by
  induction ts with
  | nil => exact nested_of_plain fun c hc => absurd hc List.not_mem_nil
  | cons t ts ih =>
    have hspace : Nested " ".toList := by
      refine nested_of_plain fun c hc => ?_
      obtain rfl := List.mem_singleton.1 hc
      decide
    have hrest := ih fun u hu => h u (List.mem_cons_of_mem t hu)
    rw [Tree.textOfAll, String.toList_append, String.toList_append]
    exact (hspace.append (h t List.mem_cons_self)).append hrest

/-- The characters of the text of a node that is no word. -/
theorem toList_text_node {label : String} {children : List Tree} (hne : children ≠ []) :
    (Tree.node label children).text.toList =
      '(' :: (label.toList ++ (Tree.textOfAll children).toList ++ [')']) := by
  rw [Tree.text_node hne]
  simp only [String.toList_append, List.append_assoc]
  rfl

/-- The text of a tree balances if its labels hold neither blanks nor parentheses. -/
theorem nested_text {t : Tree} (h : t.AllLabels IsAtom) : Nested t.text.toList := by
  induction h with
  | @node label children here _ ih =>
    by_cases hne : children = []
    · subst hne
      exact nested_atom here
    · rw [toList_text_node hne]
      exact ((nested_atom here).append (nested_textOfAll ih)).parenthesized

/-- The text of a tree is found as one item, unless the tree is a single word. -/
theorem run_text {t : Tree} (h : t.AllLabels IsAtom) (hleaf : t.isLeaf = false) (inStray : Bool)
    (position : Nat) (rest : List Char) :
    ∃ after, (Scan.outside inStray).run position (t.text.toList ++ rest) =
      .tree position t.text :: (Scan.outside false).run after rest := by
  cases h with
  | @node label children here below =>
    have hne : children ≠ [] := List.isEmpty_eq_false_iff.1 hleaf
    have hnested : Nested (label.toList ++ (Tree.textOfAll children).toList) :=
      (nested_atom here).append (nested_textOfAll fun c hc => nested_text (below c hc))
    obtain ⟨after, hrun⟩ := hnested.run_parenthesized inStray position rest
    refine ⟨after, ?_⟩
    rw [← toList_text_node hne, String.ofList_toList] at hrun
    rw [← hrun, toList_text_node hne, List.cons_append, List.append_assoc]
    rfl

/-- The number of bytes of the UTF-8 form of some characters. -/
def byteLength : List Char → Nat
  | [] => 0
  | c :: rest => c.utf8Size + byteLength rest

/-- One more character in front. -/
theorem add_byteLength_cons (position : Nat) (c : Char) (chars : List Char) :
    position + byteLength (c :: chars) = position + c.utf8Size + byteLength chars :=
  (Nat.add_assoc position c.utf8Size (byteLength chars)).symm

/-- The bytes of characters after each other. -/
theorem byteLength_append (first second : List Char) :
    byteLength (first ++ second) = byteLength first + byteLength second := by
  induction first with
  | nil => exact (Nat.zero_add _).symm
  | cons c first ih => rw [List.cons_append, byteLength, byteLength, ih, Nat.add_assoc]

/-- Outside of any tree, blanks are passed over, and in stray text everything is that opens no
tree. -/
theorem run_outside {chars : List Char} {inStray : Bool}
    (h : ∀ c ∈ chars, c ≠ '(' ∧ (Text.isBlank c || inStray) = true) (position : Nat)
    (rest : List Char) :
    (Scan.outside inStray).run position (chars ++ rest) =
      (Scan.outside inStray).run (position + byteLength chars) rest := by
  induction chars generalizing position with
  | nil => rfl
  | cons c chars ih =>
    obtain ⟨hopening, hpassed⟩ := h c List.mem_cons_self
    have hrest := ih (fun d hd => h d (List.mem_cons_of_mem c hd)) (position + c.utf8Size)
    rw [add_byteLength_cons, List.cons_append]
    simp only [Scan.run, Scan.step, hopening, hpassed, if_false, if_true, Option.toList_none,
      List.nil_append]
    exact hrest

/-- The items of the texts of trees with blanks after them are read as these trees. -/
theorem map_read_run {pieces : List (Tree × List Char)}
    (htrees : ∀ piece ∈ pieces, piece.1.AllLabels IsAtom ∧ piece.1.isLeaf = false)
    (hblanks : ∀ piece ∈ pieces, ∀ c ∈ piece.2, Text.isBlank c = true) (inStray : Bool)
    (position : Nat) :
    ((Scan.outside inStray).run position
        (pieces.flatMap fun piece => piece.1.text.toList ++ piece.2)).map Item.read =
      pieces.map fun piece => .ok piece.1 := by
  induction pieces generalizing inStray position with
  | nil => rfl
  | cons piece rest ih =>
    obtain ⟨hlabels, hleaf⟩ := htrees piece List.mem_cons_self
    obtain ⟨middle, htree⟩ := run_text hlabels hleaf inStray position
      (piece.2 ++ rest.flatMap fun piece => piece.1.text.toList ++ piece.2)
    have hblank : ∀ c ∈ piece.2, c ≠ '(' ∧ (Text.isBlank c || false) = true := fun c hc =>
      have hc := hblanks piece List.mem_cons_self c hc
      ⟨(Tree.ne_of_isBlank hc).1, by rw [hc]; rfl⟩
    have hafter := run_outside hblank middle
      (rest.flatMap fun piece => piece.1.text.toList ++ piece.2)
    have hread : Item.read (.tree position piece.1.text) = .ok piece.1 := by
      rw [Item.read, Tree.read_text hlabels hleaf]
      rfl
    have hrest := ih (fun other ho => htrees other (List.mem_cons_of_mem piece ho))
      (fun other ho => hblanks other (List.mem_cons_of_mem piece ho)) false
      (middle + byteLength piece.2)
    rw [List.flatMap_cons, List.append_assoc, htree, hafter, List.map_cons, hread, hrest,
      List.map_cons]

/-- Results that are all trees are sorted into these trees. -/
theorem ofResults_map_ok (ts : List Tree) : ofResults (ts.map .ok) = ⟨ts, []⟩ := by
  induction ts with
  | nil => rfl
  | cons t ts ih => rw [List.map_cons, ofResults, ih]

/-- Trees whose labels hold neither blanks nor parentheses are read back from a text in which they
stand one after the other with blanks between them, or none. -/
theorem read_joined (pieces : List (Tree × List Char))
    (htrees : ∀ piece ∈ pieces, piece.1.AllLabels IsAtom ∧ piece.1.isLeaf = false)
    (hblanks : ∀ piece ∈ pieces, ∀ c ∈ piece.2, Text.isBlank c = true) {text : String}
    (htext : text.toList = pieces.flatMap fun piece => piece.1.text.toList ++ piece.2) :
    read text = ⟨pieces.map Prod.fst, []⟩ := by
  rw [read, items, htext, map_read_run htrees hblanks, ← ofResults_map_ok, List.map_map]
  rfl

/-- Trees whose labels hold neither blanks nor parentheses are read back from lines, one tree a
line. -/
theorem read_unlines {ts : List Tree} (h : ∀ t ∈ ts, t.AllLabels IsAtom ∧ t.isLeaf = false) :
    read (Text.unlines (ts.map Tree.text)) = ⟨ts, []⟩ := by
  have htext : (Text.unlines (ts.map Tree.text)).toList =
      (ts.map fun t => (t, ['\n'])).flatMap fun piece => piece.1.text.toList ++ piece.2 := by
    rw [Text.unlines, String.toList_join, List.map_map, List.flatMap_map, List.flatMap_map]
    exact List.flatMap_congr fun t _ => String.toList_append
  have hread := read_joined (ts.map fun t => (t, ['\n'])) ?_ ?_ htext
  · rw [hread, List.map_map]
    exact congrArg (Treebank.mk · []) (List.map_id ts)
  · intro piece hpiece
    obtain ⟨t, ht, rfl⟩ := List.mem_map.1 hpiece
    exact h t ht
  · intro piece hpiece c hc
    obtain ⟨t, -, rfl⟩ := List.mem_map.1 hpiece
    obtain rfl := List.mem_singleton.1 hc
    decide

/-- The texts of trees whose labels hold neither blanks nor parentheses are read back from lines. -/
theorem lines_unlines_text {ts : List Tree} (h : ∀ t ∈ ts, t.AllLabels IsAtom) :
    Text.lines (Text.unlines (ts.map Tree.text)) = ts.map Tree.text := by
  refine Text.lines_unlines fun line hline => ?_
  obtain ⟨t, ht, rfl⟩ := List.mem_map.1 hline
  -- Neither of the two characters that end lines is in the text.
  have hblank : ∀ c ∈ t.text.toList, Text.isBlank c = true → c = ' ' := by
    intro c hc hblank
    rcases Tree.isPlain_or_of_mem_text (h t ht) hc with hplain | rfl | rfl | rfl
    · exact absurd (hplain.blank.symm.trans hblank) Bool.false_ne_true
    · exact absurd hblank (by decide)
    · exact absurd hblank (by decide)
    · rfl
  constructor
  · intro hfeed
    exact absurd (hblank '\n' hfeed (by decide)) (by decide)
  · intro hlast
    exact absurd (hblank '\r' (List.mem_of_getLast? hlast) (by decide)) (by decide)

/-! ## The sentences of a treebank -/

/-- A sentence of a treebank has words, and these hold neither blanks nor parentheses. -/
theorem of_mem_sentences {text : String} {words : List String}
    (h : words ∈ (read text).sentences) : words ≠ [] ∧ ∀ word ∈ words, IsAtom word := by
  obtain ⟨t, ht, rfl⟩ := List.mem_map.1 h
  exact ⟨Tree.words_ne_nil t, fun word hword => (areAtoms_of_mem_trees ht).of_mem_words hword⟩

end Constituency.Treebank
