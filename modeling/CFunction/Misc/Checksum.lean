import Mathlib.Logic.Function.Basic

/-!
# Running check sums

A check sum that takes one item at a time. When a step can be undone, from the item as well as
from the sum so far, two messages that differ in one item have different sums.
-/

namespace CFunction.Checksum

variable {α β : Type*} {op : β → α → β} {a c : α}

theorem foldl_injective (undo : ∀ a, Function.Injective (op · a)) (l : List α) :
    Function.Injective (l.foldl op) := by
  induction l with
  | nil => exact Function.injective_id
  | cons a l ih => exact ih.comp (undo a)

/-- One item replaced by another. -/
theorem foldl_ne (undo : ∀ a, Function.Injective (op · a)) (tell : ∀ s, Function.Injective (op s))
    (s : β) (before after : List α) (hac : a ≠ c) :
    (before ++ a :: after).foldl op s ≠ (before ++ c :: after).foldl op s := by
  rw [List.foldl_append, List.foldl_append, List.foldl_cons, List.foldl_cons]
  intro heq
  exact hac (tell _ (foldl_injective undo after heq))

theorem foldl_set_ne (undo : ∀ a, Function.Injective (op · a))
    (tell : ∀ s, Function.Injective (op s)) (s : β) {l : List α} {i : Nat} (hi : i < l.length)
    (hc : l[i] ≠ c) : (l.set i c).foldl op s ≠ l.foldl op s := by
  have hset := List.set_eq_take_append_cons_drop (l := l) (i := i) (a := c)
  have hsplit : l.take i ++ l[i] :: l.drop (i + 1) = l := by
    rw [← List.drop_eq_getElem_cons hi, List.take_append_drop]
  rw [hset, if_pos hi]
  intro heq
  apply foldl_ne undo tell s (l.take i) (l.drop (i + 1)) hc
  rw [hsplit, heq]

end CFunction.Checksum
