import Mathlib.Data.List.Basic

/-!
# Rewriting a list in place

One index reads and one writes, and the writing one never overtakes the other. What is behind the
writing index is done, and what is in front of the reading one is as it was.
-/

namespace CFunction

variable {α : Type*} {buf done rest unread : List α} {input output : Nat} {a b : α}

/-- `done` is written and `rest` still to be read. -/
structure InPlace (buf : List α) (input output : Nat) (done rest : List α) : Prop where
  behind : output ≤ input
  written : buf.take output = done
  count : done.length = output
  unread : buf.drop input = rest

namespace InPlace

theorem start (buf : List α) : InPlace buf 0 0 [] buf :=
  ⟨Nat.le_refl 0, List.take_zero, rfl, List.drop_zero⟩

theorem input_lt (h : InPlace buf input output done (a :: rest)) : input < buf.length := by
  have hlen := congrArg List.length h.unread
  rw [List.length_drop, List.length_cons] at hlen
  omega

theorem output_lt (h : InPlace buf input output done (a :: rest)) : output < buf.length :=
  Nat.lt_of_le_of_lt h.behind h.input_lt

theorem read (h : InPlace buf input output done (a :: rest)) : buf[input]? = some a := by
  rw [← List.head?_drop, h.unread, List.head?_cons]

theorem skip (h : InPlace buf input output done (a :: rest)) :
    InPlace buf (input + 1) output done rest where
  behind := Nat.le_succ_of_le h.behind
  written := h.written
  count := h.count
  unread := by rw [← List.drop_drop, h.unread, List.drop_one, List.tail_cons]

theorem skipTo (h : InPlace buf input output done unread) {input' : Nat} (hle : input ≤ input')
    (hunread : buf.drop input' = rest) : InPlace buf input' output done rest where
  behind := Nat.le_trans h.behind hle
  written := h.written
  count := h.count
  unread := hunread

/-- What was read is not lost when it is written. -/
theorem unread_set (h : InPlace buf input output done (a :: rest)) :
    (buf.set output a).drop input = a :: rest := by
  rcases Nat.lt_or_eq_of_le h.behind with hlt | rfl
  · rw [List.drop_set, if_pos hlt, h.unread]
  · rw [List.drop_set, if_neg (Nat.lt_irrefl _), Nat.sub_self, h.unread, List.set_cons_zero]

theorem put (h : InPlace buf input output done (a :: rest)) :
    InPlace (buf.set output a) (input + 1) (output + 1) (done ++ [a]) rest where
  behind := Nat.succ_le_succ h.behind
  written := by
    rw [List.take_add_one, List.take_set_of_le (Nat.le_refl output), h.written,
      List.getElem?_set_self h.output_lt, Option.toList_some]
  count := by rw [List.length_append, h.count, List.length_singleton]
  unread := by rw [← List.drop_drop, h.unread_set, List.drop_one, List.tail_cons]

/-- The end of what is written. -/
theorem finish (h : InPlace buf input output done (b :: rest)) (a : α) :
    buf.set output a = done ++ a :: buf.drop (output + 1) := by
  rw [List.set_eq_take_append_cons_drop, if_pos h.output_lt, h.written]

end InPlace
end CFunction
