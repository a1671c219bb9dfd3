import Constituency.Proofs.Treebank
import Constituency.Proofs.Treebank.Balance
import Mathlib.Data.List.Pairwise

/-!
# The parts of a treebank text

A treebank text falls into parts (`Parted`): blanks, trees, runs of stray text and at most one tree
that is never closed, at its end. Each part but blanks is one item (`run_parted`). Every text falls
into parts (`exists_parted`), and since parts follow each other byte by byte, a byte lies in exactly
one of them (`Parted.existsUnique_covers`).
-/

namespace Constituency.Treebank

/-! ## Parts -/

/-- What a part of a treebank text is. -/
inductive Kind where
  /-- Blanks outside of any tree. -/
  | blanks
  /-- A tree. -/
  | tree
  /-- Text outside of any tree. -/
  | stray
  /-- A tree that is never closed. -/
  | unclosed
  deriving DecidableEq

/-- A part of a treebank text. -/
structure Part where
  /-- What it is. -/
  kind : Kind
  /-- The number of bytes before it. -/
  position : Nat
  /-- Its characters. -/
  chars : List Char

namespace Part

/-- The position of the first byte after a part. -/
def finish (part : Part) : Nat := part.position + byteLength part.chars

/-- A byte lies in a part. -/
def Covers (part : Part) (place : Nat) : Prop := part.position ≤ place ∧ place < part.finish

/-- The item that a part is, if any. -/
def item? : Part → Option Item
  | ⟨.blanks, _, _⟩ => none
  | ⟨.tree, position, chars⟩ => some (.tree position (String.ofList chars))
  | ⟨.stray, position, _⟩ => some (.stray position)
  | ⟨.unclosed, position, _⟩ => some (.stray position)

end Part

/-- The position of an item. -/
def Item.position : Item → Nat
  | tree position _ => position
  | stray position => position

/-- Characters before a rest are a part of a kind. -/
inductive Begins : Kind → List Char → List Char → Prop
  /-- Blanks, and no more of them. -/
  | blanks {chars rest : List Char} (nonempty : chars ≠ [])
      (blank : ∀ c ∈ chars, Text.isBlank c = true)
      (ends : ∀ c ∈ rest.head?, Text.isBlank c = false) : Begins .blanks chars rest
  /-- A parenthesis that opens, up to the one that closes it. -/
  | tree {body rest : List Char} (levels : Levels '(' ')' 1 body 0) :
      Begins .tree ('(' :: body) rest
  /-- Any other text, up to the next parenthesis that opens. -/
  | stray {c : Char} {chars rest : List Char} (blank : Text.isBlank c = false)
      (plain : ∀ d ∈ c :: chars, d ≠ '(') (ends : ∀ d ∈ rest.head?, d = '(') :
      Begins .stray (c :: chars) rest
  /-- A parenthesis that opens and is not closed up to the end of the text. -/
  | unclosed {body : List Char} {last : Nat} (levels : Levels '(' ')' 1 body (last + 1)) :
      Begins .unclosed ('(' :: body) []

/-- A text from a position on falls into parts. -/
inductive Parted : Nat → List Char → List Part → Prop
  /-- No text falls into no parts. -/
  | nil (position : Nat) : Parted position [] []
  /-- The first part and the others. -/
  | cons {kind : Kind} {position : Nat} {chars rest : List Char} {parts : List Part}
      (first : Begins kind chars rest)
      (others : Parted (position + byteLength chars) rest parts) :
      Parted position (chars ++ rest) (⟨kind, position, chars⟩ :: parts)

/-! ## Every text falls into parts -/

/-- The first character that a run does not go on with is not one of its kind. -/
theorem eq_false_of_mem_head?_dropWhile {P : Char → Bool} {chars : List Char} {c : Char}
    (h : c ∈ (chars.dropWhile P).head?) : P c = false := by
  have hhead := List.head?_dropWhile_not P chars
  rw [Option.mem_def.1 h] at hhead
  simpa using hhead

/-- A text that is not empty begins with a part. -/
theorem exists_begins {chars : List Char} (hne : chars ≠ []) :
    ∃ kind front rest, chars = front ++ rest ∧ front ≠ [] ∧ Begins kind front rest := by
  obtain ⟨c, rest, rfl⟩ := List.exists_cons_of_ne_nil hne
  by_cases hopening : c = '('
  · subst hopening
    obtain ⟨body, rest, rfl, hbody⟩ | ⟨last, hlast⟩ :=
      Levels.exists_of_pos '(' ')' 0 rest
    · exact ⟨.tree, '(' :: body, rest, rfl, List.cons_ne_nil _ _, .tree hbody⟩
    · exact ⟨.unclosed, '(' :: rest, [], (List.append_nil _).symm, List.cons_ne_nil _ _,
        .unclosed hlast⟩
  · by_cases hblank : Text.isBlank c = true
    · have hfront : (c :: rest).takeWhile Text.isBlank ≠ [] := by
        rw [List.takeWhile_cons, if_pos hblank]
        exact List.cons_ne_nil _ _
      exact ⟨.blanks, (c :: rest).takeWhile Text.isBlank, (c :: rest).dropWhile Text.isBlank,
        List.takeWhile_append_dropWhile.symm, hfront,
        .blanks hfront (fun d hd => List.mem_takeWhile_imp hd)
          fun d hd => eq_false_of_mem_head?_dropWhile hd⟩
    · refine ⟨.stray, c :: rest.takeWhile (· ≠ '('), rest.dropWhile (· ≠ '('), ?_,
        List.cons_ne_nil _ _, .stray (Bool.eq_false_iff.2 hblank) (fun d hd => ?_) fun d hd => ?_⟩
      · rw [List.cons_append, List.takeWhile_append_dropWhile]
      · rcases List.mem_cons.1 hd with rfl | hd
        · exact hopening
        · have hplain := List.mem_takeWhile_imp hd
          exact of_decide_eq_true hplain
      · have hends := eq_false_of_mem_head?_dropWhile hd
        simpa using hends

/-- Every text falls into parts. -/
theorem exists_parted (position : Nat) (chars : List Char) :
    ∃ parts, Parted position chars parts := by
  by_cases hne : chars = []
  · exact ⟨[], hne ▸ .nil position⟩
  · obtain ⟨kind, front, rest, rfl, hfront, hbegins⟩ := exists_begins hne
    have hshorter : rest.length < (front ++ rest).length := by
      rw [List.length_append]
      exact Nat.lt_add_of_pos_left (List.length_pos_iff.2 hfront)
    obtain ⟨parts, hparts⟩ := exists_parted (position + byteLength front) rest
    exact ⟨_, .cons hbegins hparts⟩
termination_by chars.length

/-! ## Parts are items -/

/-- Where a scan that has taken characters of a tree stands on a level, and the items that it has
found: on level zero the tree is closed. -/
def reached (start : Nat) (chars : List Char) : Nat → List Item × Scan
  | 0 => ([.tree start (String.ofList chars)], .outside false)
  | depth + 1 => ([], .inside start (depth + 1) chars.reverse)

/-- Inside a tree, characters lead the scan from level to level. -/
theorem run_inside_of_levels {level last : Nat} {body : List Char}
    (h : Levels '(' ')' level body last) (hlevel : 0 < level) (start : Nat) (taken : List Char)
    (position : Nat) (rest : List Char) :
    (Scan.inside start level taken).run position (body ++ rest) =
      (reached start (taken.reverse ++ body) last).1 ++
        (reached start (taken.reverse ++ body) last).2.run (position + byteLength body) rest := by
  -- What has been taken before one more character, and what is taken with it.
  have htaken (c : Char) (taken rest : List Char) :
      (c :: taken).reverse ++ rest = taken.reverse ++ c :: rest := by
    rw [List.reverse_cons, List.append_assoc, List.singleton_append]
  induction h generalizing taken position with
  | nil level =>
    obtain ⟨depth, rfl⟩ := Nat.exists_eq_succ_of_ne_zero (Nat.ne_of_gt hlevel)
    rw [List.append_nil, reached, List.reverse_reverse]
    rfl
  | @opening level last body _ ih =>
    rw [List.cons_append, run_inside_opening, ih (Nat.succ_pos _), htaken, add_byteLength_cons]
  | @closing level last body others ih =>
    match level with
    | 0 =>
      -- The tree is closed, so nothing else belongs to it.
      obtain rfl := others.eq_nil_of_zero
      cases others
      rw [add_byteLength_cons, ← htaken, List.append_nil, reached]
      rfl
    | level + 1 =>
      rw [List.cons_append, run_inside_closing start (Nat.succ_pos level), ih (Nat.succ_pos level),
        htaken, add_byteLength_cons]
  | @other level last c body hopening hclosing _ ih =>
    rw [List.cons_append, run_inside_plain _ _ _ _ hopening hclosing, ih (Nat.succ_pos level),
      htaken, add_byteLength_cons]

/-- Outside of any tree, a parenthesis that opens one begins it whatever stands before it. -/
theorem run_outside_eq (inStray : Bool) (position : Nat) {chars : List Char}
    (h : ∀ c ∈ chars.head?, c = '(') :
    (Scan.outside inStray).run position chars = (Scan.outside false).run position chars := by
  cases chars with
  | nil => rfl
  | cons c rest =>
    obtain rfl := h c rfl
    rfl

/-- The items of a text are its parts but the blanks. -/
theorem run_parted {position : Nat} {chars : List Char} {parts : List Part}
    (h : Parted position chars parts) :
    (Scan.outside false).run position chars = parts.filterMap Part.item? := by
  induction h with
  | nil position => rfl
  | @cons kind position chars rest parts first others ih =>
    cases first with
    | blanks nonempty blank ends =>
      rw [run_outside fun c hc => ⟨(Tree.ne_of_isBlank (blank c hc)).1, by rw [blank c hc]; rfl⟩,
        ih]
      rfl
    | @tree body rest levels =>
      have hopen : (Scan.outside false).run position ('(' :: body ++ rest) =
          (Scan.inside position 1 ['(']).run (position + '('.utf8Size) (body ++ rest) := rfl
      rw [hopen, run_inside_of_levels levels Nat.one_pos, ← add_byteLength_cons]
      show _ :: (Scan.outside false).run _ rest = _
      rw [ih]
      rfl
    | @stray c chars rest blank plain ends =>
      have hstray : (Scan.outside false).run position (c :: chars ++ rest) =
          .stray position :: (Scan.outside true).run (position + c.utf8Size) (chars ++ rest) := by
        simp only [List.cons_append, Scan.run, Scan.step, plain c List.mem_cons_self, blank,
          if_false, Bool.or_false]
        rfl
      rw [hstray, run_outside fun d hd => ⟨plain d (List.mem_cons_of_mem c hd), Bool.or_true _⟩,
        ← add_byteLength_cons, run_outside_eq true _ ends, ih]
      rfl
    | @unclosed body last levels =>
      have hopen : (Scan.outside false).run position ('(' :: body ++ []) =
          (Scan.inside position 1 ['(']).run (position + '('.utf8Size) (body ++ []) := rfl
      rw [hopen, run_inside_of_levels levels Nat.one_pos]
      exact congrArg (Item.stray position :: ·) ih

/-! ## Where parts stand -/

/-- A part has a byte. -/
theorem Begins.byteLength_pos {kind : Kind} {chars rest : List Char} (h : Begins kind chars rest) :
    0 < byteLength chars := by
  have hne : chars ≠ [] := by
    cases h with
    | blanks nonempty _ _ => exact nonempty
    | tree _ => exact List.cons_ne_nil _ _
    | stray _ _ _ => exact List.cons_ne_nil _ _
    | unclosed _ => exact List.cons_ne_nil _ _
  obtain ⟨c, others, rfl⟩ := List.exists_cons_of_ne_nil hne
  exact Nat.add_pos_left c.utf8Size_pos _

/-- The item that a part is stands where the part does. -/
theorem Part.position_of_item? {part : Part} {item : Item} (h : part.item? = some item) :
    item.position = part.position := by
  obtain ⟨kind, position, chars⟩ := part
  cases kind with
  | blanks => exact absurd h nofun
  | tree => exact (Option.some.inj h) ▸ rfl
  | stray => exact (Option.some.inj h) ▸ rfl
  | unclosed => exact (Option.some.inj h) ▸ rfl

/-- A part comes before another one: it has a byte, and it ends before the other begins. -/
structure Part.Before (first second : Part) : Prop where
  /-- The first part has a byte. -/
  nonempty : first.position < first.finish
  /-- It ends before the second begins. -/
  finish_le : first.finish ≤ second.position

/-- Parts of which one comes before the other have no byte in common. -/
theorem Part.Before.not_covers {first second : Part} (h : first.Before second) {place : Nat}
    (hfirst : first.Covers place) : ¬ second.Covers place :=
  fun hsecond => absurd (hfirst.2.trans_le (h.finish_le.trans hsecond.1)) (Nat.lt_irrefl place)

namespace Parted

variable {position : Nat} {chars : List Char} {parts : List Part}

/-- Parts one after the other are the text. -/
theorem flatMap_chars (h : Parted position chars parts) : parts.flatMap Part.chars = chars := by
  induction h with
  | nil position => rfl
  | cons first others ih => rw [List.flatMap_cons, ih]

/-- Each part is one of a kind. -/
theorem exists_begins_of_mem (h : Parted position chars parts) {part : Part} (hmem : part ∈ parts) :
    ∃ rest, Begins part.kind part.chars rest := by
  induction h with
  | nil position => exact absurd hmem List.not_mem_nil
  | cons first others ih =>
    rcases List.mem_cons.1 hmem with rfl | hmem
    · exact ⟨_, first⟩
    · exact ih hmem

/-- No part stands before the text. -/
theorem position_le (h : Parted position chars parts) {part : Part} (hmem : part ∈ parts) :
    position ≤ part.position := by
  induction h with
  | nil position => exact absurd hmem List.not_mem_nil
  | cons first others ih =>
    rcases List.mem_cons.1 hmem with rfl | hmem
    · exact le_rfl
    · exact (Nat.le_add_right _ _).trans (ih hmem)

/-- Each part comes before those that follow it. -/
theorem pairwise_before (h : Parted position chars parts) : parts.Pairwise Part.Before := by
  induction h with
  | nil position => exact .nil
  | cons first others ih =>
    exact .cons (fun part hmem => ⟨Nat.lt_add_of_pos_right first.byteLength_pos,
      others.position_le hmem⟩) ih

/-- The items stand at increasing positions. -/
theorem pairwise_position (h : Parted position chars parts) :
    ((parts.filterMap Part.item?).map Item.position).Pairwise (· < ·) := by
  refine List.pairwise_map.2 (h.pairwise_before.filterMap _ fun first second hbefore => ?_)
  intro item hitem other hother
  rw [Part.position_of_item? hitem, Part.position_of_item? hother]
  exact hbefore.nonempty.trans_le hbefore.finish_le

/-- Each character of the text is one of a part and lies in it. -/
theorem exists_covers (h : Parted position chars parts) {before after : List Char} {c : Char}
    (hchars : chars = before ++ c :: after) :
    ∃ part ∈ parts, c ∈ part.chars ∧ part.Covers (position + byteLength before) := by
  induction h generalizing before with
  | nil position => exact absurd hchars (by simp)
  | @cons kind position chars rest parts first others ih =>
    have hsplit : (∃ more, before = chars ++ more ∧ rest = more ++ c :: after) ∨
        ∃ more, chars = before ++ c :: more := by
      rcases List.append_eq_append_iff.1 hchars with hlater | ⟨more, hfront, hmore⟩
      · exact .inl hlater
      · rcases List.cons_eq_append_iff.1 hmore with ⟨rfl, hrest⟩ | ⟨more, rfl, -⟩
        · exact .inl ⟨[], by rw [hfront, List.append_nil, List.append_nil], hrest⟩
        · exact .inr ⟨more, hfront⟩
    rcases hsplit with ⟨more, rfl, hrest⟩ | ⟨more, rfl⟩
    · obtain ⟨part, hmem, hc, hcovers⟩ := ih hrest
      rw [byteLength_append, ← Nat.add_assoc]
      exact ⟨part, List.mem_cons_of_mem _ hmem, hc, hcovers⟩
    · refine ⟨_, List.mem_cons_self, List.mem_append_right _ List.mem_cons_self,
        Nat.le_add_right _ _, Nat.add_lt_add_left ?_ position⟩
      rw [byteLength_append]
      exact Nat.lt_add_of_pos_right (Nat.add_pos_left c.utf8Size_pos _)

/-- A byte lies in at most one part. -/
theorem eq_of_covers (h : Parted position chars parts) {first second : Part}
    (hfirst : first ∈ parts) (hsecond : second ∈ parts) {place : Nat}
    (hcovers : first.Covers place) (hcovers' : second.Covers place) : first = second := by
  by_contra hne
  have hsymm : Std.Symm fun a b : Part => ¬ (a.Covers place ∧ b.Covers place) :=
    ⟨fun a b hab hba => hab hba.symm⟩
  have hdisjoint : parts.Pairwise fun a b => ¬ (a.Covers place ∧ b.Covers place) :=
    h.pairwise_before.imp fun hbefore hboth => hbefore.not_covers hboth.1 hboth.2
  exact hdisjoint.forall hfirst hsecond hne ⟨hcovers, hcovers'⟩

/-- A character that is no blank lies in exactly one part that is an item. -/
theorem existsUnique_covers (h : Parted position chars parts) {before after : List Char} {c : Char}
    (hchars : chars = before ++ c :: after) (hc : Text.isBlank c = false) :
    ∃! part, part ∈ parts ∧ part.kind ≠ .blanks ∧
      part.Covers (position + byteLength before) := by
  obtain ⟨part, hmem, hpart, hcovers⟩ := h.exists_covers hchars
  refine ⟨part, ⟨hmem, fun hkind => ?_, hcovers⟩, fun other hother =>
    h.eq_of_covers hother.1 hmem hother.2.2 hcovers⟩
  obtain ⟨rest, hbegins⟩ := h.exists_begins_of_mem hmem
  rw [hkind] at hbegins
  cases hbegins with
  | blanks _ blank _ => exact absurd (hc.symm.trans (blank c hpart)) Bool.false_ne_true

end Parted

/-! ## The items of a text -/

/-- A tree among the items is a parenthesis that opens, up to where it is closed. -/
theorem exists_levels_of_mem_items {text source : String} {position : Nat}
    (h : .tree position source ∈ items text) :
    ∃ body, source.toList = '(' :: body ∧ Levels '(' ')' 1 body 0 := by
  obtain ⟨parts, hparts⟩ := exists_parted 0 text.toList
  rw [items, run_parted hparts] at h
  obtain ⟨⟨kind, place, chars⟩, hmem, hitem⟩ := List.mem_filterMap.1 h
  obtain ⟨rest, hbegins⟩ := hparts.exists_begins_of_mem hmem
  cases hbegins with
  | blanks _ _ _ => exact absurd hitem.symm (Option.some_ne_none _)
  | @tree body rest levels =>
    obtain ⟨-, rfl⟩ := Item.tree.inj (Option.some.inj hitem)
    exact ⟨body, String.toList_ofList, levels⟩
  | stray _ _ _ => exact Item.noConfusion (Option.some.inj hitem)
  | unclosed _ => exact Item.noConfusion (Option.some.inj hitem)

/-- A treebank text falls into parts, each of which but the blanks is one item: trees, runs of text
outside of parentheses and a tree that is never closed. Every character that is no blank lies in
exactly one of these, and the items stand at increasing positions. The text of a tree begins with a
parenthesis and balances, no proper part of it from there on does, and it is read as a tree unless
a node in it has no label or no children. -/
theorem items_partition (text : String) :
    (∃ parts, Parted 0 text.toList parts ∧ parts.flatMap Part.chars = text.toList ∧
      items text = parts.filterMap Part.item? ∧
      ∀ before c after, text.toList = before ++ c :: after → Text.isBlank c = false →
        ∃! part, part ∈ parts ∧ part.kind ≠ .blanks ∧ part.Covers (byteLength before)) ∧
    ((items text).map Item.position).Pairwise (· < ·) ∧
    ∀ position source, .tree position source ∈ items text →
      source.toList.head? = some '(' ∧ Balanced source.toList ∧
      (∀ front, front <+: source.toList → front ≠ [] → front ≠ source.toList →
        ¬ Balanced front) ∧
      ((∃ t, Tree.read source = .ok t) ∨
        (∃ place, Tree.read source = .error (.missingLabel place)) ∨
        ∃ label, Tree.read source = .error (.noChildren label)) := by
  obtain ⟨parts, hparts⟩ := exists_parted 0 text.toList
  have hitems : items text = parts.filterMap Part.item? := run_parted hparts
  refine ⟨⟨parts, hparts, hparts.flatMap_chars, hitems, fun before c after hchars hc => ?_⟩,
    ?_, fun position source hmem => ?_⟩
  · have hunique := hparts.existsUnique_covers hchars hc
    rwa [Nat.zero_add] at hunique
  · rw [hitems]
    exact hparts.pairwise_position
  · obtain ⟨body, hsource, hlevels⟩ := exists_levels_of_mem_items hmem
    obtain ⟨hbalanced, hproper⟩ := balanced_of_levels hlevels
    rw [hsource]
    exact ⟨rfl, hbalanced, hproper, Tree.read_of_levels hsource hlevels⟩

/-- A tree, stray text that begins with a parenthesis, a node without children, and a tree that is
never closed; two of the characters have two bytes. -/
theorem items_partition_strayDog :
    items "(NP cão)) ó (S)(X" = [.tree 0 "(NP cão)", .stray 9, .tree 14 "(S)", .stray 17] ∧
      Balanced "(NP cão)".toList ∧ ¬ Balanced "(NP".toList ∧
      ((items "(NP cão)) ó (S)(X").map Item.position).Pairwise (· < ·) ∧
      ∃ parts, Parted 0 "(NP cão)) ó (S)(X".toList parts ∧
        ∃! part, part ∈ parts ∧ part.kind ≠ .blanks ∧ part.Covers 11 := by
  have hitems : items "(NP cão)) ó (S)(X" =
      [.tree 0 "(NP cão)", .stray 9, .tree 14 "(S)", .stray 17] := by decide +kernel
  obtain ⟨⟨parts, hparts, -, -, hunique⟩, hpositions, htrees⟩ :=
    items_partition "(NP cão)) ó (S)(X"
  obtain ⟨-, hbalanced, hproper, -⟩ := htrees 0 "(NP cão)" (hitems ▸ List.mem_cons_self)
  refine ⟨hitems, hbalanced, hproper _ ?_ ?_ ?_, hpositions, parts, hparts,
    hunique "(NP cão)) ".toList 'ó' " (S)(X".toList ?_ ?_⟩
  all_goals decide +kernel

end Constituency.Treebank
