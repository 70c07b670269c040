import Mathlib.Data.Nat.ModEq
import Mathlib.Data.List.Basic

/-!
# Circular layouts

A fixed list of slots read from position `h` and wrapping around at the end. `Layout` says
that this reading order shows a list `xs` followed by unused slots.
-/

namespace CFunction.Circular

variable {α : Type*}

/-- Read from `h` onwards, `slots` holds `xs`; the remaining slots hold `unused`. -/
def Layout (unused : α) (slots : List α) (h : Nat) (xs : List α) : Prop :=
  ∀ i, i < slots.length → slots[(h + i) % slots.length]? = some (xs[i]?.getD unused)

/-- Distinct offsets below the number of slots are distinct positions. -/
theorem offset_inj {n h i j : Nat} (hi : i < n) (hj : j < n)
    (same : (h + i) % n = (h + j) % n) : i = j :=
  Nat.ModEq.eq_of_lt_of_lt (Nat.ModEq.add_left_cancel' h same) hi hj

theorem layout_nil (unused : α) (n h : Nat) : Layout unused (List.replicate n unused) h [] := by
  intro i hi
  rw [List.length_replicate] at hi ⊢
  simp [Nat.mod_lt _ (Nat.zero_lt_of_lt hi)]

/-- Writing the first unused slot appends an item. -/
theorem Layout.push {unused a : α} {slots : List α} {h : Nat} {xs : List α}
    (lay : Layout unused slots h xs) (room : xs.length < slots.length) :
    Layout unused (slots.set ((h + xs.length) % slots.length) a) h (xs ++ [a]) := by
  intro i hi
  rw [List.length_set] at hi ⊢
  have hpos : (h + i) % slots.length < slots.length := Nat.mod_lt _ (Nat.zero_lt_of_lt hi)
  by_cases same : (h + xs.length) % slots.length = (h + i) % slots.length
  · obtain rfl := offset_inj room hi same
    simp [hpos]
  · have hne : i ≠ xs.length := by rintro rfl; exact same rfl
    rw [List.getElem?_set_ne same, lay i hi]
    rcases Nat.lt_or_gt_of_ne hne with hlt | hgt
    · rw [List.getElem?_append_left hlt]
    · rw [List.getElem?_eq_none (by omega), List.getElem?_eq_none (by simp; omega)]

/-- The first item is the one at `h`. -/
theorem Layout.first {unused x : α} {slots : List α} {h : Nat} {xs : List α}
    (lay : Layout unused slots h (x :: xs)) (hh : h < slots.length) : slots[h]? = some x := by
  have h0 := lay 0 (Nat.zero_lt_of_lt hh)
  rwa [Nat.add_zero, Nat.mod_eq_of_lt hh] at h0

/-- Clearing the first slot and moving on by one removes the first item. -/
theorem Layout.pop {unused x : α} {slots : List α} {h : Nat} {xs : List α}
    (lay : Layout unused slots h (x :: xs)) (hh : h < slots.length)
    (fits : xs.length < slots.length) :
    Layout unused (slots.set h unused) ((h + 1) % slots.length) xs := by
  intro i hi
  rw [List.length_set] at hi ⊢
  have hpos : ((h + 1) % slots.length + i) % slots.length = (h + (i + 1)) % slots.length := by
    rw [Nat.mod_add_mod]; congr 1; omega
  rw [hpos]
  rcases Nat.lt_or_ge (i + 1) slots.length with hlt | hge
  · -- the slot keeps its item: it is not the one cleared
    have hne : h ≠ (h + (i + 1)) % slots.length := by
      intro same
      have : (h + 0) % slots.length = (h + (i + 1)) % slots.length := by
        rwa [Nat.add_zero, Nat.mod_eq_of_lt hh]
      exact absurd (offset_inj (by omega) hlt this) (by omega)
    rw [List.getElem?_set_ne hne, lay (i + 1) hlt, List.getElem?_cons_succ]
  · -- the last offset wraps around to the cleared slot
    have hwrap : (h + (i + 1)) % slots.length = h := by
      rw [show i + 1 = slots.length by omega, Nat.add_mod_right, Nat.mod_eq_of_lt hh]
    rw [hwrap, List.getElem?_set_self hh, List.getElem?_eq_none (by omega), Option.getD_none]

end CFunction.Circular
