import Mathlib.Data.List.Forall2

/-!
# Computations that may fail

A computation of two parts comes to a result if its parts do, and a list of computations if each of
them does.
-/

namespace Constituency

/-- A computation of two parts comes to a result if its parts do. -/
theorem bind_eq_ok_iff {ε α β : Type} {first : Except ε α} {second : α → Except ε β} {b : β} :
    first >>= second = .ok b ↔ ∃ a, first = .ok a ∧ second a = .ok b := by
  cases first with
  | error e =>
    constructor
    · exact nofun
    · rintro ⟨a, ha, -⟩
      exact absurd ha nofun
  | ok a =>
    constructor
    · exact fun h => ⟨a, rfl, h⟩
    · rintro ⟨a, ha, h⟩
      obtain rfl := Except.ok.inj ha
      exact h

/-- Another wording of the error does not matter to the result. -/
theorem mapError_eq_ok_iff {ε ε' α : Type} {computation : Except ε α} {wording : ε → ε'} {a : α} :
    computation.mapError wording = .ok a ↔ computation = .ok a := by
  cases computation with
  | error e => exact ⟨nofun, nofun⟩
  | ok b =>
    constructor
    · exact fun h => congrArg Except.ok (Except.ok.inj h)
    · exact fun h => congrArg Except.ok (Except.ok.inj h)

/-- What is made of a result comes if the result does. -/
theorem map_eq_ok_iff {ε α β : Type} {computation : Except ε α} {f : α → β} {b : β} :
    computation.map f = .ok b ↔ ∃ a, computation = .ok a ∧ f a = b := by
  cases computation with
  | error e =>
    constructor
    · exact nofun
    · rintro ⟨a, ha, -⟩
      exact absurd ha nofun
  | ok a =>
    constructor
    · exact fun h => ⟨a, rfl, Except.ok.inj h⟩
    · rintro ⟨a', ha, rfl⟩
      exact congrArg (fun a => Except.ok (f a)) (Except.ok.inj ha)

/-- Results come from a list one by one, if all of them come. -/
theorem mapM_eq_ok_iff {α β ε : Type} {f : α → Except ε β} {xs : List α} {ys : List β} :
    xs.mapM f = .ok ys ↔ List.Forall₂ (fun x y => f x = .ok y) xs ys := by
  induction xs generalizing ys with
  | nil =>
    rw [List.mapM_nil, List.forall₂_nil_left_iff]
    exact ⟨fun h => (Except.ok.inj h).symm, fun h => by rw [h]; rfl⟩
  | cons x xs ih =>
    rw [List.mapM_cons]
    cases hx : f x with
    | error e =>
      constructor
      · exact nofun
      · intro h
        cases h with
        | cons hy _ => exact absurd (hx.symm.trans hy) nofun
    | ok y =>
      cases hxs : xs.mapM f with
      | error e =>
        constructor
        · exact nofun
        · intro h
          cases h with
          | cons _ hys => exact absurd (hxs.symm.trans (ih.2 hys)) nofun
      | ok rest =>
        constructor
        · intro h
          obtain rfl := Except.ok.inj h
          exact .cons hx (ih.1 hxs)
        · intro h
          cases h with
          | cons hy hys =>
            obtain rfl := Except.ok.inj (hx.symm.trans hy)
            obtain rfl := Except.ok.inj (hxs.symm.trans (ih.2 hys))
            rfl

/-- A member of the first of two related lists is related to one of the second. -/
theorem exists_mem_of_forall₂ {α β : Type} {r : α → β → Prop} {xs : List α} {ys : List β}
    (h : List.Forall₂ r xs ys) {x : α} (hx : x ∈ xs) : ∃ y ∈ ys, r x y := by
  induction h with
  | nil => exact absurd hx List.not_mem_nil
  | @cons first result rest results hfirst _ ih =>
    rcases List.mem_cons.1 hx with rfl | hx
    · exact ⟨result, List.mem_cons_self, hfirst⟩
    · obtain ⟨y, hy, hxy⟩ := ih hx
      exact ⟨y, List.mem_cons_of_mem _ hy, hxy⟩

/-- A member of the second of two related lists is related to one of the first. -/
theorem exists_of_mem_forall₂ {α β : Type} {r : α → β → Prop} {xs : List α} {ys : List β}
    (h : List.Forall₂ r xs ys) {y : β} (hy : y ∈ ys) : ∃ x ∈ xs, r x y :=
  exists_mem_of_forall₂ h.flip hy

/-- The result of a member is a member of the results. -/
theorem exists_mem_of_mapM {α β ε : Type} {f : α → Except ε β} {xs : List α} {ys : List β}
    (h : xs.mapM f = .ok ys) {x : α} (hx : x ∈ xs) : ∃ y ∈ ys, f x = .ok y :=
  exists_mem_of_forall₂ (mapM_eq_ok_iff.1 h) hx

/-- A member of the results is the result of a member. -/
theorem exists_of_mem_mapM {α β ε : Type} {f : α → Except ε β} {xs : List α} {ys : List β}
    (h : xs.mapM f = .ok ys) {y : β} (hy : y ∈ ys) : ∃ x ∈ xs, f x = .ok y :=
  exists_of_mem_forall₂ (mapM_eq_ok_iff.1 h) hy

/-- If every result comes, the list of them does. -/
theorem exists_mapM_eq_ok {α β ε : Type} {f : α → Except ε β} {xs : List α}
    (h : ∀ x ∈ xs, ∃ y, f x = .ok y) : ∃ ys, xs.mapM f = .ok ys := by
  induction xs with
  | nil => exact ⟨[], rfl⟩
  | cons x xs ih =>
    obtain ⟨y, hy⟩ := h x List.mem_cons_self
    obtain ⟨ys, hys⟩ := ih fun z hz => h z (List.mem_cons_of_mem x hz)
    exact ⟨y :: ys, mapM_eq_ok_iff.2 (.cons hy (mapM_eq_ok_iff.1 hys))⟩

end Constituency
