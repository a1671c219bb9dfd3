import Constituency.Chart.Span
import Mathlib.Data.List.Nodup
import Mathlib.Data.List.Range
import Mathlib.Data.List.TakeWhile

/-!
# Places, lengths and divisions of spans

Different spans have different places in the triangle (`slot_injective`). The lists of spans of one
length, of spans of several words and of divisions of a span hold exactly what they should, and the
words that a span picks from a sentence are those of its two parts at any division.
-/

namespace Constituency.Span

variable {n : Nat}

/-- A place is counted from the beginning of its column. -/
theorem slot_eq_total_add (s : Span n) : s.slot = total (s.stop - 1) + s.start := by
  have hlt := s.start_lt_stop
  unfold slot total
  rw [Nat.sub_add_cancel (by omega), Nat.mul_comm]

/-- A span of an earlier column has an earlier place. -/
theorem slot_lt_slot {s t : Span n} (h : s.stop < t.stop) : s.slot < t.slot := by
  have hs := s.start_lt_stop
  have hcolumn := total_succ (s.stop - 1)
  rw [Nat.sub_add_cancel (by omega)] at hcolumn
  -- A whole column lies between the beginnings of the two.
  have hle : total s.stop ≤ total (t.stop - 1) := total_le_total (by omega)
  rw [slot_eq_total_add s, slot_eq_total_add t]
  omega

/-- Different spans have different places. -/
theorem slot_injective {s t : Span n} (h : s.slot = t.slot) : s = t := by
  have hstop : s.stop = t.stop := by
    rcases Nat.lt_trichotomy s.stop t.stop with hlt | heq | hgt
    · exact absurd h (Nat.ne_of_lt (slot_lt_slot hlt))
    · exact heq
    · exact absurd h.symm (Nat.ne_of_lt (slot_lt_slot hgt))
  have hstart : s.start = t.start := by
    rw [slot_eq_total_add s, slot_eq_total_add t, hstop] at h
    omega
  exact Span.ext hstart hstop

/-- The number of words of a span. -/
def length (s : Span n) : Nat := s.stop - s.start

/-- A span has a word. -/
theorem length_pos (s : Span n) : 0 < s.length := Nat.sub_pos_of_lt s.start_lt_stop

/-- A span ends its length after its start. -/
theorem start_add_length (s : Span n) : s.start + s.length = s.stop :=
  Nat.add_sub_cancel' (Nat.le_of_lt s.start_lt_stop)

/-- A span has no more words than the sentence. -/
theorem length_le (s : Span n) : s.length ≤ n := Nat.le_trans (Nat.sub_le _ _) s.stop_le

/-- Two positions make a certain span. -/
theorem between?_eq_some_iff {start stop : Nat} {s : Span n} :
    between? n start stop = some s ↔ s.start = start ∧ s.stop = stop := by
  unfold between?
  constructor
  · intro h
    split at h
    · cases h
      exact ⟨rfl, rfl⟩
    · exact absurd h nofun
  · rintro ⟨rfl, rfl⟩
    rw [dif_pos ⟨s.start_lt_stop, s.stop_le⟩]

/-- The list of a length holds the spans of that length. -/
theorem mem_ofLength {length : Nat} {s : Span n} :
    s ∈ ofLength n length ↔ s.length = length := by
  have hs := s.start_lt_stop
  have hn := s.stop_le
  simp only [ofLength, List.mem_filterMap, List.mem_range, between?_eq_some_iff, Span.length]
  constructor
  · rintro ⟨start, -, h1, h2⟩
    omega
  · intro hl
    exact ⟨s.start, by omega, rfl, by omega⟩

/-- The list of a length holds no span twice. -/
theorem nodup_ofLength (n length : Nat) : (ofLength n length).Nodup := by
  refine List.Nodup.filterMap ?_ List.nodup_range
  intro a b s ha hb
  rw [Option.mem_def, between?_eq_some_iff] at ha hb
  exact ha.1.symm.trans hb.1

/-- The spans of one word start at the positions of the sentence, in order. -/
theorem ofLength_one (n : Nat) :
    (ofLength n 1).map Span.start = List.range n := by
  rw [ofLength, List.map_filterMap, Nat.add_sub_cancel]
  have h : ∀ start ∈ List.range n,
      ((between? n start (start + 1)).map Span.start) = some start := by
    intro start hs
    rw [between?, dif_pos ⟨Nat.lt_succ_self _, List.mem_range.1 hs⟩]
    rfl
  calc (List.range n).filterMap (fun start => (between? n start (start + 1)).map Span.start)
      = (List.range n).filterMap some := List.filterMap_congr h
    _ = List.range n := List.filterMap_some

/-- The spans of several words, the shortest ones first. -/
def several (n : Nat) : List (Span n) := (List.range' 2 (n - 1)).flatMap (ofLength n)

/-- The list of the spans of several words holds these. -/
theorem mem_several {s : Span n} : s ∈ several n ↔ 1 < s.length := by
  have hle := s.length_le
  simp only [several, List.mem_flatMap, List.mem_range'_1, mem_ofLength]
  constructor
  · rintro ⟨length, hlength, rfl⟩
    omega
  · intro hs
    exact ⟨s.length, by omega, rfl⟩

/-- The list of the spans of several words holds none twice. -/
theorem nodup_several (n : Nat) : (several n).Nodup := by
  refine List.nodup_flatMap.2 ⟨fun length _ => nodup_ofLength n length, ?_⟩
  refine (List.nodup_range' 1).imp fun hne s hs hs' => hne ?_
  rw [← mem_ofLength.1 hs, mem_ofLength.1 hs']

/-- Of the spans of several words, no span comes before a shorter one. -/
theorem pairwise_several (n : Nat) : (several n).Pairwise fun s t => s.length ≤ t.length := by
  refine List.pairwise_flatMap.2 ⟨fun length _ => ?_, ?_⟩
  · refine (nodup_ofLength n length).imp_of_mem fun hs ht _ => ?_
    rw [mem_ofLength.1 hs, mem_ofLength.1 ht]
  · refine (List.pairwise_lt_range' 1).imp fun hlt s hs t ht => ?_
    rw [mem_ofLength.1 hs, mem_ofLength.1 ht]
    exact Nat.le_of_lt hlt

/-- The spans of several words that have their turn before a span. -/
def preceding (s : Span n) : List (Span n) := (several n).takeWhile (· ≠ s)

/-- The spans of several words that have their turn after a span. -/
def following (s : Span n) : List (Span n) := ((several n).dropWhile (· ≠ s)).drop 1

/-- A span of several words stands between those before it and those after it. -/
theorem several_eq {s : Span n} (hs : 1 < s.length) :
    several n = s.preceding ++ s :: s.following := by
  have hmem : s ∈ several n := mem_several.2 hs
  have hrest : (several n).dropWhile (· ≠ s) = s :: s.following := by
    rw [following]
    cases hdrop : (several n).dropWhile (· ≠ s) with
    | nil => exact absurd rfl (of_decide_eq_true (List.dropWhile_eq_nil_iff.1 hdrop s hmem))
    | cons t rest =>
      have hhead := List.head?_dropWhile_not (fun t => decide (t ≠ s)) (several n)
      rw [hdrop] at hhead
      obtain rfl : t = s := by simpa using hhead
      rfl
  rw [← hrest, preceding, List.takeWhile_append_dropWhile]

/-- The turn of a span of several words, between those that come before it and those that come after
it. -/
structure Turn (s : Span n) (front back : List (Span n)) : Prop where
  /-- The span has several words. -/
  several : 1 < s.length
  /-- It does not come before. -/
  not_mem_front : s ∉ front
  /-- It does not come after. -/
  not_mem_back : s ∉ back
  /-- No longer span comes before. -/
  le_of_mem_front : ∀ {t}, t ∈ front → t.length ≤ s.length
  /-- No shorter span comes after. -/
  le_of_mem_back : ∀ {t}, t ∈ back → s.length ≤ t.length
  /-- All shorter spans come before. -/
  mem_front : ∀ {t : Span n}, 1 < t.length → t.length < s.length → t ∈ front

/-- A shorter span has one word or comes before. -/
theorem Turn.one_or_mem_front {s t : Span n} {front back : List (Span n)} (h : s.Turn front back)
    (hlt : t.length < s.length) : t.length = 1 ∨ t ∈ front := by
  have hpos := t.length_pos
  by_cases hone : t.length = 1
  · exact .inl hone
  · exact .inr (h.mem_front (by omega) hlt)

/-- In the list of the spans of several words, each of them has its turn. -/
theorem turn_of_several_eq {s : Span n} {front back : List (Span n)}
    (h : several n = front ++ s :: back) : s.Turn front back := by
  have hnodup : (front ++ s :: back).Nodup := h ▸ nodup_several n
  have hpairwise := h ▸ pairwise_several n
  have hback : ∀ {t}, t ∈ back → s.length ≤ t.length := fun ht =>
    (List.pairwise_cons.1 (List.pairwise_append.1 hpairwise).2.1).1 _ ht
  refine ⟨mem_several.1 (h ▸ List.mem_append_right _ List.mem_cons_self),
    fun hs => List.disjoint_of_nodup_append hnodup hs List.mem_cons_self,
    (List.nodup_cons.1 hnodup.of_append_right).1,
    fun ht => (List.pairwise_append.1 hpairwise).2.2 _ ht s List.mem_cons_self, hback, ?_⟩
  intro t ht hlt
  have hmem : t ∈ front ++ s :: back := h ▸ mem_several.2 ht
  rcases List.mem_append.1 hmem with hfront | hrest
  · exact hfront
  · rcases List.mem_cons.1 hrest with rfl | hrest
    · exact absurd hlt (Nat.lt_irrefl _)
    · exact absurd hlt (Nat.not_lt.2 (hback hrest))

/-- A span of several words has its turn. -/
theorem turn {s : Span n} (hs : 1 < s.length) : s.Turn s.preceding s.following :=
  turn_of_several_eq (several_eq hs)

/-- The divisions of a span are its pairs of neighbouring parts. -/
theorem mem_splits {s left right : Span n} :
    (left, right) ∈ s.splits ↔
      left.start = s.start ∧ left.stop = right.start ∧ right.stop = s.stop := by
  have hl := left.start_lt_stop
  have hr := right.start_lt_stop
  simp only [splits, List.mem_filterMap, List.mem_range'_1, Option.bind_eq_bind,
    Option.bind_eq_some_iff, Option.pure_def, Option.some.injEq, Prod.mk.injEq,
    between?_eq_some_iff]
  constructor
  · rintro ⟨middle, -, l, ⟨h1, h2⟩, r, ⟨h3, h4⟩, rfl, rfl⟩
    exact ⟨h1, h2.trans h3.symm, h4⟩
  · rintro ⟨h1, h2, h3⟩
    exact ⟨left.stop, by omega, left, ⟨h1, rfl⟩, right, ⟨h2.symm, h3⟩, rfl, rfl⟩

/-- The parts of a division are shorter than the span. -/
theorem length_lt_of_mem_splits {s left right : Span n} (h : (left, right) ∈ s.splits) :
    left.length < s.length ∧ right.length < s.length := by
  obtain ⟨h1, h2, h3⟩ := mem_splits.1 h
  have hl := left.start_lt_stop
  have hr := right.start_lt_stop
  unfold Span.length
  omega

/-- The words that a span picks from a sentence. -/
def pick {α : Type} (s : Span n) (words : List α) : List α := (words.drop s.start).take s.length

/-- A span of one word picks the word at its start. -/
theorem pick_of_length_one {α : Type} {s : Span n} {words : List α} {word : α}
    (hs : s.length = 1) (hw : words[s.start]? = some word) : s.pick words = [word] := by
  obtain ⟨hlt, rfl⟩ := List.getElem?_eq_some_iff.1 hw
  rw [pick, hs, List.drop_eq_getElem_cons hlt]
  rfl

/-- The words of a span are those of its parts at a division. -/
theorem pick_append {α : Type} {s left right : Span n} (h : (left, right) ∈ s.splits)
    (words : List α) : left.pick words ++ right.pick words = s.pick words := by
  obtain ⟨h1, h2, h3⟩ := mem_splits.1 h
  have hl := left.start_add_length
  have hr := right.start_add_length
  have hs := s.start_add_length
  have hlen : s.length = left.length + right.length := by omega
  rw [pick, pick, pick, hlen, List.take_add, h1, List.drop_drop]
  congr 3
  omega

/-- A span of a sentence picks as many words as it has. -/
theorem length_pick {α : Type} (s : Span n) {words : List α} (h : words.length = n) :
    (s.pick words).length = s.length := by
  have hs := s.start_add_length
  have hn := s.stop_le
  rw [pick, List.length_take, List.length_drop]
  omega

end Constituency.Span
