import Mathlib.Data.List.Basic

/-!
# Lines of bounded length

A list cut behind every stop, and behind every `n` elements that hold none: what a reader gets
that is given room for `n` elements at a time.
-/

namespace CFunction.BoundedLines

variable {α : Type*} [DecidableEq α] {stop : α} {n : Nat} {cur l t : List α}

/-- `cur` is what of the line has been read. -/
def cut (stop : α) (n : Nat) (cur : List α) : List α → List (List α)
  | [] => if cur = [] then [] else [cur]
  | b :: l =>
    if b = stop ∨ cur.length + 1 = n then (cur ++ [b]) :: cut stop n [] l
    else cut stop n (cur ++ [b]) l

theorem cut_here {b : α} (h : b = stop ∨ cur.length + 1 = n) (l : List α) :
    cut stop n cur (b :: l) = (cur ++ [b]) :: cut stop n [] l := by
  rw [cut, if_pos h]

theorem cut_on {b : α} (h : ¬ (b = stop ∨ cur.length + 1 = n)) (l : List α) :
    cut stop n cur (b :: l) = cut stop n (cur ++ [b]) l := by
  rw [cut, if_neg h]

/-- A stop ends a line wherever it stands. -/
theorem cut_append_stop (cur l t : List α) :
    cut stop n cur (l ++ stop :: t) = cut stop n cur (l ++ [stop]) ++ cut stop n [] t := by
  induction l generalizing cur with
  | nil =>
    rw [List.nil_append, List.nil_append, cut_here (.inl rfl), cut_here (.inl rfl)]
    rfl
  | cons b l ih =>
    rw [List.cons_append, List.cons_append]
    by_cases h : b = stop ∨ cur.length + 1 = n
    · rw [cut_here h, cut_here h, ih, List.cons_append]
    · rw [cut_on h, cut_on h, ih]

/-- A line with its stop. -/
theorem cut_line (hl : stop ∉ l) (hn : cur.length + l.length < n) :
    cut stop n cur (l ++ [stop]) = [cur ++ l ++ [stop]] := by
  induction l generalizing cur with
  | nil =>
    rw [List.nil_append, cut_here (.inl rfl), List.append_nil]
    rfl
  | cons b l ih =>
    rw [List.mem_cons, not_or] at hl
    rw [List.length_cons] at hn
    have hb : ¬ (b = stop ∨ cur.length + 1 = n) := by
      rintro (rfl | hfull)
      · exact hl.1 rfl
      · omega
    have hnext := @ih (cur ++ [b]) hl.2 (by
      rw [List.length_append, List.length_singleton]
      omega)
    rw [List.cons_append, cut_on hb, hnext]
    simp

/-- The last line, without a stop. -/
theorem cut_last (hl : stop ∉ l) (hn : cur.length + l.length < n) (hne : cur ++ l ≠ []) :
    cut stop n cur l = [cur ++ l] := by
  induction l generalizing cur with
  | nil =>
    rw [List.append_nil] at hne
    rw [cut, if_neg hne, List.append_nil]
  | cons b l ih =>
    rw [List.mem_cons, not_or] at hl
    rw [List.length_cons] at hn
    have hb : ¬ (b = stop ∨ cur.length + 1 = n) := by
      rintro (rfl | hfull)
      · exact hl.1 rfl
      · omega
    have hnext := @ih (cur ++ [b]) hl.2 (by
      rw [List.length_append, List.length_singleton]
      omega) (by simp)
    rw [cut_on hb, hnext]
    simp

/-- `n` elements without a stop. -/
theorem cut_full (hl : stop ∉ l) (hne : l ≠ []) (hn : cur.length + l.length = n) (t : List α) :
    cut stop n cur (l ++ t) = (cur ++ l) :: cut stop n [] t := by
  induction l generalizing cur with
  | nil => exact absurd rfl hne
  | cons b l ih =>
    rw [List.mem_cons, not_or] at hl
    rw [List.length_cons] at hn
    rw [List.cons_append]
    cases l with
    | nil => rw [cut_here (.inr (by simpa using hn)), List.nil_append]
    | cons c l =>
      rw [List.length_cons] at hn
      have hb : ¬ (b = stop ∨ cur.length + 1 = n) := by
        rintro (rfl | hfull)
        · exact hl.1 rfl
        · omega
      have hnext := @ih (cur ++ [b]) hl.2 (List.cons_ne_nil c l) (by
        rw [List.length_append, List.length_singleton, List.length_cons]
        omega)
      rw [cut_on hb, hnext]
      simp

/-- No line is longer than `n`. -/
theorem length_le_of_mem_cut {line : List α} (hcur : cur.length < n)
    (h : line ∈ cut stop n cur l) : line.length ≤ n := by
  induction l generalizing cur with
  | nil =>
    rw [cut] at h
    split at h
    · exact absurd h List.not_mem_nil
    · rw [List.mem_singleton.1 h]
      exact Nat.le_of_lt hcur
  | cons b l ih =>
    by_cases hb : b = stop ∨ cur.length + 1 = n
    · rw [cut_here hb] at h
      rcases List.mem_cons.1 h with rfl | h
      · rw [List.length_append, List.length_singleton]
        exact hcur
      · exact @ih [] (Nat.zero_lt_of_lt hcur) h
    · rw [cut_on hb] at h
      refine ih ?_ h
      rw [List.length_append, List.length_singleton]
      omega

/-- There are no more lines than elements. -/
theorem length_cut_le (cur l : List α) : (cut stop n cur l).length ≤ l.length + cur.length := by
  induction l generalizing cur with
  | nil =>
    rw [cut]
    split
    · exact Nat.zero_le _
    · rename_i hne
      have hpos := List.length_pos_iff.2 hne
      rw [List.length_singleton, List.length_nil]
      omega
  | cons b l ih =>
    rw [List.length_cons]
    by_cases hb : b = stop ∨ cur.length + 1 = n
    · have hrest := ih []
      rw [List.length_nil] at hrest
      rw [cut_here hb, List.length_cons]
      omega
    · have hrest := ih (cur ++ [b])
      rw [List.length_append, List.length_singleton] at hrest
      rw [cut_on hb]
      omega

end CFunction.BoundedLines
