import CFunction.Misc.Runs

/-!
# Double-ended queues

A list with a front and a back. A non-positive `size` sets no limit. As for `Fifo`, the labels
carry the answers; an insertion may also be given up for lack of memory.
-/

namespace CFunction.Deque

variable {α : Type*}

/-- No further item is accepted. -/
def Full (size : Int) (xs : List α) : Prop := 0 < size ∧ size ≤ xs.length

/-- The list with `a` at the front or at the back. -/
def push (front : Bool) (a : α) (xs : List α) : List α := if front then a :: xs else xs ++ [a]

@[simp] theorem push_length (front : Bool) (a : α) (xs : List α) :
    (push front a xs).length = xs.length + 1 := by
  cases front with
  | false => exact List.length_append
  | true => rfl

@[simp] theorem mem_push {front : Bool} {a b : α} {xs : List α} :
    b ∈ push front a xs ↔ b = a ∨ b ∈ xs := by
  cases front with
  | false => simp [push, or_comm]
  | true => simp [push]

theorem map_push {β : Type*} (f : α → β) (front : Bool) (a : α) (xs : List α) :
    (push front a xs).map f = push front (f a) (xs.map f) := by
  cases front with
  | false => exact List.map_append
  | true => rfl

theorem push_headD (front : Bool) (a d : α) (xs : List α) :
    (push front a xs).headD d = if front ∨ xs = [] then a else xs.headD d := by
  cases front with
  | false => cases xs <;> simp [push]
  | true => simp [push]

/-- An item with room keeps the limit. -/
theorem push_le_size {size : Int} {xs : List α} (room : ¬ Full size xs) (front : Bool) (a : α)
    (hsize : 0 < size) : ((push front a xs).length : Int) ≤ size := by
  have hlt : ¬ size ≤ xs.length := fun h => room ⟨hsize, h⟩
  rw [push_length]
  omega

/-- An operation and its answer. -/
inductive Op (α : Type*)
  | pushed (front : Bool) (a : α)
  | refused
  | noMemory
  | popped (a : α)
  | empty

inductive Step (size : Int) : List α → Op α → List α → Prop
  | pushed {xs : List α} (front : Bool) (a : α) (room : ¬ Full size xs) :
      Step size xs (.pushed front a) (push front a xs)
  | refused {xs : List α} (full : Full size xs) : Step size xs .refused xs
  | noMemory {xs : List α} (room : ¬ Full size xs) : Step size xs .noMemory xs
  | popped {xs : List α} (a : α) : Step size (xs ++ [a]) (.popped a) xs
  | empty : Step size [] .empty []

end CFunction.Deque
