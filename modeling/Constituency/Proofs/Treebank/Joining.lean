import Constituency.Proofs.Treebank

/-!
# Treebank texts after each other

A treebank text is scanned from left to right, and all that the scan remembers outside of any tree
is whether it is in stray text. So a text that leaves no tree open and one that follows it are read
as the two by themselves, but for stray text at the end of the first that goes on in the second
(`read_append`). The items of the second have other positions then (`map_source_run`), which matter
neither to the trees nor to the number of rejected items (`trees_read`,
`length_trees_add_skipped_read`).
-/

namespace Constituency.Treebank

open Constituency.Tree (IsAtom)

/-! ## Where a scan ends -/

/-- How many parentheses are open after some characters if `depth` are open before them. A
parenthesis that closes nothing does not count. -/
def openAfter (depth : Nat) : List Char → Nat
  | [] => depth
  | c :: rest =>
    if c = '(' then openAfter (depth + 1) rest
    else if c = ')' then openAfter (depth - 1) rest
    else openAfter depth rest

/-- Whether an item is a stray one. -/
def Item.isStray : Item → Bool
  | tree _ _ => false
  | stray _ => true

namespace Scan

/-- Where a scan stands after some characters. -/
def after (scan : Scan) (position : Nat) : List Char → Scan
  | [] => scan
  | c :: rest => (scan.step position c).1.after (position + c.utf8Size) rest

/-- The items of a text are that of its first character and those from the next state on. -/
theorem run_cons (scan : Scan) (position : Nat) (c : Char) (rest : List Char) :
    scan.run position (c :: rest) = (scan.step position c).2.toList ++
      (scan.step position c).1.run (position + c.utf8Size) rest := rfl

/-- The number of open parentheses. -/
def depth : Scan → Nat
  | outside _ => 0
  | inside _ depth _ => depth

/-- Inside a tree there is an open parenthesis. -/
def Proper : Scan → Prop
  | outside _ => True
  | inside _ depth _ => 0 < depth

/-- A step keeps count of the open parentheses. -/
theorem step_spec {scan : Scan} (h : scan.Proper) (position : Nat) (c : Char) :
    (scan.step position c).1.Proper ∧
      (scan.step position c).1.depth =
        if c = '(' then scan.depth + 1 else if c = ')' then scan.depth - 1 else scan.depth := by
  cases scan with
  | outside inStray =>
    rw [step]
    split
    · exact ⟨Nat.one_pos, rfl⟩
    -- What stands here may be a parenthesis that closes nothing: no depth is below zero.
    · split
      · exact ⟨trivial, by simp [depth]⟩
      · exact ⟨trivial, by simp [depth]⟩
  | inside start depth taken =>
    have hdepth : 0 < depth := h
    rw [step]
    split
    · exact ⟨Nat.succ_pos depth, rfl⟩
    · split
      · split
        · rename_i hlast
          exact ⟨trivial, (Nat.sub_eq_zero_of_le hlast).symm⟩
        · rename_i hlast
          exact ⟨Nat.sub_pos_of_lt (Nat.lt_of_not_le hlast), rfl⟩
      · exact ⟨hdepth, rfl⟩

/-- A scan ends outside of any tree if no parenthesis is left open. -/
theorem exists_after_eq_outside {scan : Scan} (h : scan.Proper) {chars : List Char}
    (hclosed : openAfter scan.depth chars = 0) (position : Nat) :
    ∃ inStray, scan.after position chars = outside inStray := by
  induction chars generalizing scan position with
  | nil =>
    cases scan with
    | outside inStray => exact ⟨inStray, rfl⟩
    -- Inside a tree its own parenthesis is still open.
    | inside start depth taken => exact absurd hclosed (Nat.ne_of_gt h)
  | cons c rest ih =>
    obtain ⟨hproper, hdepth⟩ := step_spec h position c
    refine ih hproper ?_ _
    rw [hdepth, ← hclosed, openAfter]
    split
    · rfl
    · split <;> rfl

/-- A scan that ends outside of any tree is gone on with from there. -/
theorem run_append {scan : Scan} {position : Nat} {first : List Char} {inStray : Bool}
    (h : scan.after position first = outside inStray) :
    ∃ place, ∀ second, scan.run position (first ++ second) =
      scan.run position first ++ (outside inStray).run place second := by
  induction first generalizing scan position with
  | nil =>
    obtain rfl : scan = outside inStray := h
    exact ⟨position, fun second => rfl⟩
  | cons c rest ih =>
    obtain ⟨place, hrest⟩ := ih h
    refine ⟨place, fun second => ?_⟩
    rw [List.cons_append, run_cons, run_cons, hrest, List.append_assoc]

/-- Whether the scan is in stray text. Inside a tree it is not, but until the tree is an item, the
last item may be a stray one; `last` says whether it is. -/
def strayed (last : Bool) : Scan → Bool
  | outside inStray => inStray
  | inside _ _ _ => last

/-- A step that finds no item changes nothing about the last one, and a scan is in stray text after
a stray item. -/
theorem strayed_step (last : Bool) (scan : Scan) (position : Nat) (c : Char) :
    (scan.step position c).1.strayed (scan.strayed last) =
      ((scan.step position c).2.map Item.isStray).getD (scan.strayed last) := by
  cases scan with
  | outside inStray =>
    rw [step]
    split
    · rfl
    · split <;> rfl
  | inside start depth taken =>
    rw [step]
    split
    · rfl
    · split
      · split <;> rfl
      · rfl

/-- A scan that ends outside of any tree is in stray text exactly if the last item is a stray
one. -/
theorem strayed_of_after {scan : Scan} {position : Nat} {chars : List Char} {inStray : Bool}
    (h : scan.after position chars = outside inStray) (last : Bool) :
    inStray = ((scan.run position chars).getLast?.map Item.isStray).getD (scan.strayed last) := by
  induction chars generalizing scan position last with
  | nil =>
    obtain rfl : scan = outside inStray := h
    rfl
  | cons c rest ih =>
    -- What the last item is before the rest of the text is known after one step.
    rw [ih h (scan.strayed last), strayed_step, run_cons, List.getLast?_append]
    cases (scan.step position c).2 with
    | none => simp
    | some item =>
      cases ((scan.step position c).1.run (position + c.utf8Size) rest).getLast? <;> rfl

end Scan

/-! ## Where a text stands -/

/-- The text of an item that is no stray one. -/
def Item.source? : Item → Option String
  | tree _ source => some source
  | stray _ => none

/-- Whether the first character that is no blank begins no tree. -/
def beginsStray (chars : List Char) : Bool :=
  (chars.find? fun c => !Text.isBlank c).any fun c => c != '('

namespace Scan

/-- A scan whose tree starts at another place. -/
def startingAt (start : Nat) : Scan → Scan
  | outside inStray => outside inStray
  | inside _ depth taken => inside start depth taken

/-- A step at another place leads to the same state but for the start of the tree, and it finds an
item with the same text. -/
theorem step_startingAt (scan : Scan) (start position other : Nat) (c : Char) :
    (∃ next, ((scan.startingAt start).step other c).1 =
      (scan.step position c).1.startingAt next) ∧
    ((scan.startingAt start).step other c).2.map Item.source? =
      (scan.step position c).2.map Item.source? := by
  cases scan with
  | outside inStray =>
    rw [startingAt, step, step]
    split
    · exact ⟨⟨other, rfl⟩, rfl⟩
    · split
      · exact ⟨⟨0, rfl⟩, rfl⟩
      · exact ⟨⟨0, rfl⟩, rfl⟩
  | inside first depth taken =>
    rw [startingAt, step, step]
    split
    · exact ⟨⟨start, rfl⟩, rfl⟩
    · split
      · split
        · exact ⟨⟨0, rfl⟩, rfl⟩
        · exact ⟨⟨start, rfl⟩, rfl⟩
      · exact ⟨⟨start, rfl⟩, rfl⟩

/-- Where a text stands, and where the tree starts that is open before it, does not matter to the
texts of the items. -/
theorem map_source_run (scan : Scan) (start position other : Nat) (chars : List Char) :
    ((scan.startingAt start).run other chars).map Item.source? =
      (scan.run position chars).map Item.source? := by
  induction chars generalizing scan start position other with
  | nil => cases scan <;> rfl
  | cons c rest ih =>
    obtain ⟨⟨next, hnext⟩, hitem⟩ := step_startingAt scan start position other c
    have hitems : ((scan.startingAt start).step other c).2.toList.map Item.source? =
        (scan.step position c).2.toList.map Item.source? := by
      rw [← Option.toList_map, ← Option.toList_map, hitem]
    rw [run_cons, run_cons, List.map_append, List.map_append, hnext,
      ih _ next (position + c.utf8Size), hitems]

/-- In stray text, what goes on with it is no item of its own; all else is read as it would be
outside of stray text. -/
theorem exists_run_outside (position : Nat) (chars : List Char) :
    ∃ place, (outside false).run position chars =
      (if beginsStray chars then [.stray place] else []) ++ (outside true).run position chars := by
  induction chars generalizing position with
  | nil => exact ⟨position, rfl⟩
  | cons c rest ih =>
    by_cases hopening : c = '('
    · -- A tree begins, and the scan forgets that it was in stray text.
      subst hopening
      exact ⟨position, rfl⟩
    · rw [run_cons, run_cons, step, step, if_neg hopening, if_neg hopening]
      cases hblank : Text.isBlank c with
      | true =>
        obtain ⟨place, hrest⟩ := ih (position + c.utf8Size)
        refine ⟨place, ?_⟩
        have hbegins : beginsStray (c :: rest) = beginsStray rest := by
          rw [beginsStray, List.find?_cons, hblank]
          rfl
        rw [hbegins]
        exact hrest
      | false =>
        refine ⟨position, ?_⟩
        have hbegins : beginsStray (c :: rest) = true := by
          rw [beginsStray, List.find?_cons, hblank]
          exact bne_iff_ne.2 hopening
        rw [hbegins]
        rfl

end Scan

/-! ## What is read -/

/-- The tree in the text of an item, if there is one. -/
def treeIn? (source : Option String) : Option Tree :=
  source.bind fun text => (Tree.read text).toOption

/-- Only the text of an item says whether a tree is read from it. -/
theorem toOption_read (item : Item) : item.read.toOption = treeIn? item.source? := by
  cases item with
  | stray position => rfl
  | tree position source =>
    rw [Item.read, Item.source?, treeIn?, Option.bind_some]
    cases Tree.read source <;> rfl

/-- The trees of sorted results are those that could be read, in order. -/
theorem trees_ofResults (results : List (Except Reject Tree)) :
    (ofResults results).trees = results.filterMap Except.toOption := by
  induction results with
  | nil => rfl
  | cons result rest ih =>
    cases result with
    | error reject => exact ih
    | ok t => exact congrArg (t :: ·) ih

/-- Every result is a tree or a rejected item. -/
theorem length_trees_add_skipped (results : List (Except Reject Tree)) :
    (ofResults results).trees.length + (ofResults results).skipped = results.length := by
  induction results with
  | nil => rfl
  | cons result rest ih =>
    cases result with
    | error reject => exact congrArg Nat.succ ih
    | ok t => exact (Nat.succ_add _ _).trans (congrArg Nat.succ ih)

/-- The texts of the items of a treebank text, without a text for a stray one. -/
def sources (text : String) : List (Option String) := (items text).map Item.source?

/-- The trees of a text are those that are read from the texts of its items. -/
theorem trees_read (text : String) : (read text).trees = (sources text).filterMap treeIn? := by
  rw [read, trees_ofResults, sources, List.filterMap_map, List.filterMap_map]
  exact List.filterMap_congr fun item _ => toOption_read item

/-- Every item of a text is a tree or rejected. -/
theorem length_trees_add_skipped_read (text : String) :
    (read text).trees.length + (read text).skipped = (sources text).length := by
  rw [read, length_trees_add_skipped, List.length_map, sources, List.length_map]

/-- Whether the last item of a text is a stray one. -/
def endsStray (text : String) : Bool := (items text).getLast?.any Item.isStray

/-- The items of a text that leaves no tree open and of a text after it are those of the two by
themselves, but stray text that goes on is no item of the second. -/
theorem exists_sources_append {first : String} (h : openAfter 0 first.toList = 0)
    (second : String) :
    ∃ rest, sources (first ++ second) = sources first ++ rest ∧
      sources second =
        (if endsStray first && beginsStray second.toList then [none] else []) ++ rest := by
  have hproper : (Scan.outside false).Proper := trivial
  obtain ⟨inStray, hafter⟩ := Scan.exists_after_eq_outside hproper h 0
  obtain ⟨place, happend⟩ := Scan.run_append hafter
  have hends : inStray = endsStray first := by
    rw [Scan.strayed_of_after hafter false, endsStray, items]
    cases ((Scan.outside false).run 0 first.toList).getLast? <;> rfl
  -- The second text is scanned from where the first one leaves off, at its place there.
  have hplace : ∀ stray, ((Scan.outside stray).run place second.toList).map Item.source? =
      ((Scan.outside stray).run 0 second.toList).map Item.source? :=
    fun stray => Scan.map_source_run (.outside stray) 0 0 place second.toList
  refine ⟨((Scan.outside inStray).run 0 second.toList).map Item.source?, ?_, ?_⟩
  · rw [sources, items, String.toList_append, happend, List.map_append, hplace]
    rfl
  · rw [← hends, sources, items]
    cases inStray with
    | false => rfl
    | true =>
      obtain ⟨start, hrun⟩ := Scan.exists_run_outside 0 second.toList
      rw [hrun, List.map_append, Bool.true_and]
      cases beginsStray second.toList <;> rfl

/-- The trees of a text that leaves no tree open and of a text after it follow each other. -/
theorem trees_append {first : String} (h : openAfter 0 first.toList = 0) (second : String) :
    (read (first ++ second)).trees = (read first).trees ++ (read second).trees := by
  obtain ⟨rest, hall, hsecond⟩ := exists_sources_append h second
  rw [trees_read, trees_read, trees_read, hall, hsecond, List.filterMap_append,
    List.filterMap_append]
  -- A stray item has no tree.
  split <;> rfl

/-- The rejected items of a text that leaves no tree open and of a text after it are those of both,
but for stray text that goes on. -/
theorem skipped_append {first : String} (h : openAfter 0 first.toList = 0) (second : String) :
    (read (first ++ second)).skipped +
        (if endsStray first && beginsStray second.toList then 1 else 0) =
      (read first).skipped + (read second).skipped := by
  obtain ⟨rest, hall, hsecond⟩ := exists_sources_append h second
  -- An item is either read as a tree or rejected, so the rejected ones can be counted by the rest.
  have hfirst := length_trees_add_skipped_read first
  have hread := length_trees_add_skipped_read second
  have hboth := length_trees_add_skipped_read (first ++ second)
  rw [hall, trees_append h, List.length_append, List.length_append] at hboth
  rw [hsecond, List.length_append] at hread
  have hstray : (if endsStray first && beginsStray second.toList then [(none : Option String)]
      else []).length = if endsStray first && beginsStray second.toList then 1 else 0 := by
    split <;> rfl
  omega

/-- Trees are read back from their texts, with any blanks after each. -/
theorem read_join {pieces : List (Tree × String)}
    (h : ∀ piece ∈ pieces, piece.1.AllLabels IsAtom ∧ piece.1.isLeaf = false ∧
      Text.isBlankText piece.2 = true) :
    read (String.join (pieces.map fun piece => piece.1.text ++ piece.2)) =
      ⟨pieces.map Prod.fst, []⟩ := by
  have htext : (String.join (pieces.map fun piece => piece.1.text ++ piece.2)).toList =
      (pieces.map fun piece => (piece.1, piece.2.toList)).flatMap
        fun piece => piece.1.text.toList ++ piece.2 := by
    rw [String.toList_join, List.flatMap_map, List.flatMap_map]
    exact List.flatMap_congr fun piece _ => String.toList_append
  rw [read_joined _ ?_ ?_ htext, List.map_map]
  · rfl
  · intro piece hpiece
    obtain ⟨given, hgiven, rfl⟩ := List.mem_map.1 hpiece
    exact ⟨(h given hgiven).1, (h given hgiven).2.1⟩
  · intro piece hpiece
    obtain ⟨given, hgiven, rfl⟩ := List.mem_map.1 hpiece
    exact List.all_eq_true.1 (h given hgiven).2.2

/-- A text that leaves no tree open and a text after it are read as the two by themselves: their
trees follow each other, and the rejected items are those of both, but for stray text at the end of
the first that goes on in the second and is one item with it. So trees are read back from their
texts, with any blanks between them. -/
theorem read_append :
    (∀ first second : String, openAfter 0 first.toList = 0 →
      (read (first ++ second)).trees = (read first).trees ++ (read second).trees ∧
      (read (first ++ second)).skipped +
          (if endsStray first && beginsStray second.toList then 1 else 0) =
        (read first).skipped + (read second).skipped) ∧
    ∀ pieces : List (Tree × String),
      (∀ piece ∈ pieces, piece.1.AllLabels IsAtom ∧ piece.1.isLeaf = false ∧
        Text.isBlankText piece.2 = true) →
      read (String.join (pieces.map fun piece => piece.1.text ++ piece.2)) =
        ⟨pieces.map Prod.fst, []⟩ := by
  constructor
  · intro first second h
    exact ⟨trees_append h second, skipped_append h second⟩
  · intro pieces h
    exact read_join h

/-- Two dogs, the one of which is followed by stray text that goes on before the other. -/
theorem read_append_strayDogs :
    openAfter 0 "(NP (NN dog))) and\n".toList = 0 ∧
      (read ("(NP (NN dog))) and\n" ++ " a (NP (NNS dogs))(NP")).trees =
        [.node "NP" [.node "NN" [.leaf "dog"]], .node "NP" [.node "NNS" [.leaf "dogs"]]] ∧
      (read "(NP (NN dog))) and\n").skipped = 1 ∧ (read " a (NP (NNS dogs))(NP").skipped = 2 ∧
      (read ("(NP (NN dog))) and\n" ++ " a (NP (NNS dogs))(NP")).skipped = 2 ∧
      read (String.join ([(Tree.node "NN" [.leaf "dog"], ""), (.node "NN" [.leaf "cat"], "\n ")].map
          fun piece => piece.1.text ++ piece.2)) =
        ⟨[.node "NN" [.leaf "dog"], .node "NN" [.leaf "cat"]], []⟩ := by
  have hclosed : openAfter 0 "(NP (NN dog))) and\n".toList = 0 := by decide +kernel
  obtain ⟨htrees, hskipped⟩ := read_append.1 _ " a (NP (NNS dogs))(NP" hclosed
  have hfirst : (read "(NP (NN dog))) and\n").skipped = 1 := by decide +kernel
  have hsecond : (read " a (NP (NNS dogs))(NP").skipped = 2 := by decide +kernel
  have hstray : (endsStray "(NP (NN dog))) and\n" &&
      beginsStray " a (NP (NNS dogs))(NP".toList) = true := by decide +kernel
  refine ⟨hclosed, ?_, hfirst, hsecond, ?_, ?_⟩
  · rw [htrees]
    decide +kernel
  · rw [hfirst, hsecond, if_pos hstray] at hskipped
    omega
  · exact read_append.2 [(.node "NN" [.leaf "dog"], ""), (.node "NN" [.leaf "cat"], "\n ")]
      (by decide +kernel)

end Constituency.Treebank
