import Constituency.OrderedMap
import Mathlib.Data.List.Induction
import Mathlib.Data.List.Nodup

/-!
# Looking up and changing keys

A change of one key is seen by a look-up of that key alone, and it leaves the keys in their order: a
key that is present stays in its place and a new one comes last. So the keys of a map that grows
from the empty one along a list are those of the list in the order of their first occurrences
(`keys_foldl_alter`), they are distinct, and then the entries are what look-ups find.
-/

namespace Constituency.OrderedMap

variable {α β : Type}

/-- The empty map lists no keys. -/
@[simp]
theorem keys_empty : (empty : OrderedMap α β).keys = [] := rfl

variable [BEq α] [LawfulBEq α]

/-- Looking up a key among entries that have been changed. -/
theorem lookup_alterEntries (key other : α) (change : Option β → β) (entries : List (α × β)) :
    (alterEntries key change entries).lookup other =
      if other == key then some (change (entries.lookup key)) else entries.lookup other := by
  induction entries with
  | nil => simp only [alterEntries, List.lookup_cons, List.lookup_nil]; cases other == key <;> rfl
  | cons entry rest ih =>
    obtain ⟨first, value⟩ := entry
    by_cases hf : first = key
    · subst hf
      simp only [alterEntries, beq_self_eq_true, if_true, List.lookup_cons]
      cases h : other == first <;> simp
    · have hfk : (first == key) = false := beq_false_of_ne hf
      have hkf : (key == first) = false := beq_false_of_ne (Ne.symm hf)
      simp only [alterEntries, hfk, Bool.false_eq_true, if_false, List.lookup_cons, ih, hkf]
      cases ho : other == first with
      | false => rfl
      | true =>
        have hok : (other == key) = false := by rw [eq_of_beq ho]; exact hfk
        simp [hok]

/-- A changed key has its new value, and every other key the value that it had. -/
theorem find?_alter (m : OrderedMap α β) (key other : α) (change : Option β → β) :
    (m.alter key change).find? other =
      if other == key then some (change (m.find? key)) else m.find? other :=
  lookup_alterEntries key other change m.entries

/-- The value of the key that is changed. -/
@[simp]
theorem find?_alter_self (m : OrderedMap α β) (key : α) (change : Option β → β) :
    (m.alter key change).find? key = some (change (m.find? key)) := by
  rw [find?_alter, beq_self_eq_true, if_pos rfl]

/-- The value of a key that is not changed. -/
theorem find?_alter_of_ne (m : OrderedMap α β) {key other : α} (h : other ≠ key)
    (change : Option β → β) : (m.alter key change).find? other = m.find? other := by
  rw [find?_alter, beq_false_of_ne h, if_neg Bool.false_ne_true]

/-- The value of the key that is inserted. -/
@[simp]
theorem find?_insert_self (m : OrderedMap α β) (key : α) (value : β) :
    (m.insert key value).find? key = some value := find?_alter_self m key _

/-- The value of a key that is not inserted. -/
theorem find?_insert_of_ne (m : OrderedMap α β) {key other : α} (h : other ≠ key) (value : β) :
    (m.insert key value).find? other = m.find? other := find?_alter_of_ne m h _

/-- The list of a key after values have been appended to the list of one key. -/
theorem getD_find?_append (m : OrderedMap α (List β)) (key other : α) (values : List β) :
    ((m.append key values).find? other).getD [] =
      (m.find? other).getD [] ++ if key == other then values else [] := by
  rw [append]
  by_cases h : other = key
  · subst h
    rw [find?_alter_self, Option.getD_some, beq_self_eq_true, if_pos rfl]
  · rw [find?_alter_of_ne _ h, beq_false_of_ne (Ne.symm h), if_neg Bool.false_ne_true,
      List.append_nil]

/-- The list of a key in a map that grows from the empty one: what has been appended to it, in
order. -/
theorem getD_find?_foldl_append {γ : Type} (key : γ → α) (values : γ → List β) (items : List γ)
    (other : α) :
    ((items.foldl (fun m item => m.append (key item) (values item)) empty).find? other).getD [] =
      (items.filter (key · == other)).flatMap values := by
  induction items using List.reverseRecOn with
  | nil => rfl
  | append_singleton items last ih =>
    rw [List.foldl_append, List.foldl_cons, List.foldl_nil, getD_find?_append, ih,
      List.filter_append, List.flatMap_append]
    cases h : key last == other <;> simp [h]

/-- A list that is found after values have been appended was found before, or it ends in the values
that are new. -/
theorem find?_append_cases {m : OrderedMap α (List β)} {key other : α} {values found : List β}
    (h : (m.append key values).find? other = some found) :
    m.find? other = some found ∨ other = key ∧
      (found = values ∨ ∃ before, m.find? key = some before ∧ found = before ++ values) := by
  rw [append] at h
  by_cases ho : other = key
  · subst ho
    rw [find?_alter_self] at h
    refine Or.inr ⟨rfl, ?_⟩
    cases hbefore : m.find? other with
    | none =>
      rw [hbefore] at h
      exact Or.inl (Option.some.inj h).symm
    | some before =>
      rw [hbefore] at h
      exact Or.inr ⟨before, rfl, (Option.some.inj h).symm⟩
  · rw [find?_alter_of_ne _ ho] at h
    exact Or.inl h

/-- A key has a value exactly if it is listed. -/
theorem isSome_find?_iff (m : OrderedMap α β) (key : α) :
    (m.find? key).isSome = true ↔ key ∈ m.keys := by
  obtain ⟨entries⟩ := m
  simp only [find?, keys]
  induction entries with
  | nil => simp
  | cons entry rest ih =>
    rw [List.lookup_cons, List.map_cons, List.mem_cons]
    cases h : key == entry.1 with
    | true => simp [eq_of_beq h]
    | false => simp [ih, ne_of_beq_false h]

/-- A key that is listed has a value. -/
theorem exists_find?_of_mem_keys {m : OrderedMap α β} {key : α} (h : key ∈ m.keys) :
    ∃ value, m.find? key = some value := Option.isSome_iff_exists.1 ((isSome_find?_iff m key).2 h)

/-- A key that has a value is listed. -/
theorem mem_keys_of_find? {m : OrderedMap α β} {key : α} {value : β}
    (h : m.find? key = some value) : key ∈ m.keys :=
  (isSome_find?_iff m key).1 (by rw [h]; rfl)

omit [LawfulBEq α] in
/-- The value of a key is one of the values. -/
theorem mem_values_of_find? {m : OrderedMap α β} {key : α} {value : β}
    (h : m.find? key = some value) : value ∈ m.values := by
  obtain ⟨entries⟩ := m
  simp only [find?, values] at h ⊢
  induction entries with
  | nil => exact absurd h nofun
  | cons entry rest ih =>
    rw [List.lookup_cons] at h
    rw [List.map_cons, List.mem_cons]
    split at h
    · exact Or.inl (Option.some.inj h).symm
    · exact Or.inr (ih h)

/-- What contains a key lists it. -/
theorem contains_iff (m : OrderedMap α β) (key : α) : m.contains key = true ↔ key ∈ m.keys :=
  isSome_find?_iff m key

/-- Changing a key that is listed leaves the keys as they are. -/
theorem keys_alter_of_mem {m : OrderedMap α β} {key : α} (h : key ∈ m.keys)
    (change : Option β → β) : (m.alter key change).keys = m.keys := by
  obtain ⟨entries⟩ := m
  simp only [keys, alter] at h ⊢
  induction entries with
  | nil => simp at h
  | cons entry rest ih =>
    obtain ⟨first, value⟩ := entry
    by_cases hf : first = key
    · simp [alterEntries, hf]
    · have hrest : key ∈ rest.map Prod.fst := by
        rcases List.mem_cons.1 h with h | h
        · exact absurd h.symm hf
        · exact h
      simp [alterEntries, hf, ih hrest]

/-- Changing a key that is not listed adds it at the end with its first value. -/
theorem alter_of_not_mem {m : OrderedMap α β} {key : α} (h : key ∉ m.keys)
    (change : Option β → β) : m.alter key change = ⟨m.entries ++ [(key, change none)]⟩ := by
  obtain ⟨entries⟩ := m
  rw [alter]
  congr 1
  simp only [keys] at h
  induction entries with
  | nil => rfl
  | cons entry rest ih =>
    obtain ⟨first, value⟩ := entry
    rw [List.map_cons, List.mem_cons, not_or] at h
    simp [alterEntries, Ne.symm h.1, ih h.2]

/-- Changing a key that is not listed lists it last. -/
theorem keys_alter_of_not_mem {m : OrderedMap α β} {key : α} (h : key ∉ m.keys)
    (change : Option β → β) : (m.alter key change).keys = m.keys ++ [key] := by
  rw [alter_of_not_mem h, keys, keys, List.map_append]
  rfl

/-- Two changes of one key are one change. -/
theorem alter_alter (m : OrderedMap α β) (key : α) (first second : Option β → β) :
    (m.alter key first).alter key second =
      m.alter key fun present => second (some (first present)) := by
  obtain ⟨entries⟩ := m
  simp only [alter]
  congr 1
  induction entries with
  | nil => simp [alterEntries]
  | cons entry rest ih =>
    obtain ⟨other, value⟩ := entry
    by_cases ho : other = key
    · simp [alterEntries, ho]
    · simp [alterEntries, ho, ih]

/-- Lists that are appended to the value of one key after each other. -/
theorem append_append (m : OrderedMap α (List β)) (key : α) (first second : List β) :
    (m.append key first).append key second = m.append key (first ++ second) := by
  rw [append, append, alter_alter, append]
  simp

omit [LawfulBEq α] in
/-- A map with a changed key has entries. -/
theorem entries_alter_ne_nil (m : OrderedMap α β) (key : α) (change : Option β → β) :
    (m.alter key change).entries ≠ [] := by
  obtain ⟨entries⟩ := m
  simp only [alter]
  cases entries with
  | nil => exact List.cons_ne_nil _ _
  | cons entry rest =>
    rw [alterEntries]
    split <;> exact List.cons_ne_nil _ _

/-- The keys after a change are those before it and the key that is changed. -/
theorem mem_keys_alter {m : OrderedMap α β} {key other : α} {change : Option β → β} :
    other ∈ (m.alter key change).keys ↔ other = key ∨ other ∈ m.keys := by
  by_cases h : key ∈ m.keys
  · rw [keys_alter_of_mem h]
    constructor
    · exact Or.inr
    · rintro (rfl | ho)
      · exact h
      · exact ho
  · rw [keys_alter_of_not_mem h, List.mem_append, List.mem_singleton, or_comm]

/-- The keys after an insertion are those before it and the key that is inserted. -/
theorem mem_keys_insert {m : OrderedMap α β} {key other : α} {value : β} :
    other ∈ (m.insert key value).keys ↔ other = key ∨ other ∈ m.keys := mem_keys_alter

omit [LawfulBEq α] in
/-- What holds of all values still holds of them after one has been changed, if the change keeps it
and the first value has it. -/
theorem forall_values_alter {m : OrderedMap α β} {p : β → Prop} {change : Option β → β}
    (h : ∀ value ∈ m.values, p value) (hfirst : p (change none))
    (hchange : ∀ value, p value → p (change (some value))) (key : α) :
    ∀ value ∈ (m.alter key change).values, p value := by
  obtain ⟨entries⟩ := m
  simp only [values, alter] at h ⊢
  induction entries with
  | nil => simpa [alterEntries] using hfirst
  | cons entry rest ih =>
    obtain ⟨other, old⟩ := entry
    rw [List.map_cons, List.forall_mem_cons] at h
    unfold alterEntries
    split
    · rw [List.map_cons, List.forall_mem_cons]
      exact ⟨hchange old h.1, h.2⟩
    · rw [List.map_cons, List.forall_mem_cons]
      exact ⟨h.1, ih h.2⟩

/-- A change of distinct keys leaves them distinct. -/
theorem nodup_keys_alter {m : OrderedMap α β} (h : m.keys.Nodup) (key : α)
    (change : Option β → β) : (m.alter key change).keys.Nodup := by
  by_cases hk : key ∈ m.keys
  · rw [keys_alter_of_mem hk]
    exact h
  · rw [keys_alter_of_not_mem hk]
    exact h.append (List.nodup_singleton key) (by simpa using hk)

/-- If the keys are distinct, the entries are the keys with the values that are found. -/
theorem mem_entries_iff {m : OrderedMap α β} (h : m.keys.Nodup) {key : α} {value : β} :
    (key, value) ∈ m.entries ↔ m.find? key = some value := by
  obtain ⟨entries⟩ := m
  simp only [keys, find?] at h ⊢
  induction entries with
  | nil => simp
  | cons entry rest ih =>
    obtain ⟨first, other⟩ := entry
    rw [List.map_cons, List.nodup_cons] at h
    rw [List.mem_cons, List.lookup_cons]
    by_cases hk : key = first
    · subst hk
      have hrest : (key, value) ∉ rest := fun hm => h.1 (List.mem_map.2 ⟨_, hm, rfl⟩)
      simp [hrest, eq_comm]
    · rw [beq_false_of_ne hk]
      simp [hk, ih h.2]

/-- If the keys are distinct, every value is that of a key. -/
theorem exists_find?_of_mem_values {m : OrderedMap α β} (h : m.keys.Nodup) {value : β}
    (hv : value ∈ m.values) : ∃ key, m.find? key = some value := by
  obtain ⟨⟨key, value⟩, hentry, rfl⟩ := List.mem_map.1 hv
  exact ⟨key, (mem_entries_iff h).1 hentry⟩

/-- Maps with distinct keys that find the same have the same entries, maybe in another order. -/
theorem entries_perm {m other : OrderedMap α β} (h : m.keys.Nodup) (ho : other.keys.Nodup)
    (hfind : ∀ key, m.find? key = other.find? key) : m.entries.Perm other.entries := by
  rw [List.perm_ext_iff_of_nodup (List.Nodup.of_map _ h) (List.Nodup.of_map _ ho)]
  rintro ⟨key, value⟩
  rw [mem_entries_iff h, mem_entries_iff ho, hfind]

omit [LawfulBEq α] in
/-- Values that are appended to the list of a key are added to all values. -/
theorem flatten_values_append (m : OrderedMap α (List β)) (key : α) (values : List β) :
    (m.append key values).values.flatten.Perm (m.values.flatten ++ values) := by
  obtain ⟨entries⟩ := m
  simp only [append, alter, OrderedMap.values]
  induction entries with
  | nil => simp [alterEntries]
  | cons entry rest ih =>
    obtain ⟨other, found⟩ := entry
    rw [alterEntries]
    split
    · simp only [List.map_cons, List.flatten_cons, Option.getD_some, List.append_assoc]
      exact List.perm_append_comm.append_left found
    · simp only [List.map_cons, List.flatten_cons, List.append_assoc]
      exact ih.append_left found

/-! ## Maps made of lists -/

/-- What is listed in the order of first occurrences stays as it is with one more that is listed,
and one that is not comes last. -/
theorem eraseDups_append_singleton (items : List α) (last : α) :
    (items ++ [last]).eraseDups =
      items.eraseDups ++ if items.contains last then [] else [last] := by
  rw [List.eraseDups_append, List.cons_removeAll, List.nil_removeAll]
  cases items.contains last <;> rfl

/-- Nothing is listed twice in the order of first occurrences. -/
theorem nodup_eraseDups (items : List α) : items.eraseDups.Nodup := by
  induction items using List.reverseRecOn with
  | nil => exact List.nodup_nil
  | append_singleton items last ih =>
    rw [eraseDups_append_singleton]
    cases hlisted : items.contains last with
    | true =>
      rw [if_pos rfl, List.append_nil]
      exact ih
    | false =>
      have hnew : last ∉ items.eraseDups := by
        rw [List.mem_eraseDups, ← List.contains_iff_mem, hlisted]
        exact Bool.false_ne_true
      rw [if_neg Bool.false_ne_true]
      exact ih.append (List.nodup_singleton last) (by simpa using hnew)

/-- The keys of a map that grows from the empty one along a list are those of the list, in the order
of their first occurrences. -/
theorem keys_foldl_alter {γ : Type} (key : γ → α) (change : γ → Option β → β) (items : List γ) :
    (items.foldl (fun m item => m.alter (key item) (change item)) empty).keys =
      (items.map key).eraseDups := by
  induction items using List.reverseRecOn with
  | nil => rfl
  | append_singleton items last ih =>
    rw [List.foldl_append, List.map_append, List.map_singleton, eraseDups_append_singleton, ← ih,
      List.foldl_cons, List.foldl_nil]
    by_cases h :
        key last ∈ (items.foldl (fun m item => m.alter (key item) (change item)) empty).keys
    · have hlisted : (items.map key).contains (key last) = true := by
        rw [ih, List.mem_eraseDups] at h
        exact List.contains_iff_mem.2 h
      rw [keys_alter_of_mem h, hlisted, if_pos rfl, List.append_nil]
    · have hnew : (items.map key).contains (key last) = false := by
        rw [ih, List.mem_eraseDups] at h
        exact Bool.eq_false_iff.2 fun hlisted => h (List.contains_iff_mem.1 hlisted)
      rw [keys_alter_of_not_mem h, hnew, if_neg Bool.false_ne_true]

/-- The keys of a map that grows from the empty one are distinct. -/
theorem nodup_keys_foldl_alter {γ : Type} (key : γ → α) (change : γ → Option β → β)
    (items : List γ) :
    (items.foldl (fun m item => m.alter (key item) (change item)) empty).keys.Nodup := by
  rw [keys_foldl_alter]
  exact nodup_eraseDups _

/-- If the keys are distinct, the entries are the keys with their values. -/
theorem entries_eq_map {m : OrderedMap α β} (h : m.keys.Nodup) (default : β) :
    m.entries = m.keys.map fun key => (key, (m.find? key).getD default) := by
  rw [keys, List.map_map]
  refine (List.map_id _).symm.trans (List.map_congr_left fun entry hentry => ?_)
  rw [Function.comp_apply, (mem_entries_iff h).1 hentry]
  rfl

end Constituency.OrderedMap
