import CFunction.Misc.CString
import Mathlib.Data.List.TakeWhile

/-!
# `char` arrays of a fixed size

The fields of a record are arrays whose size is part of their type, so that a copy of `sizeof`
bytes into a field stays inside.
-/

namespace CFunction

open CString

/-- A `char[n]`. -/
structure CharArray (n : Nat) where
  bytes : Bytes
  length_eq : bytes.length = n
  deriving DecidableEq

namespace CharArray

variable {n : Nat}

/-- All bytes zero. -/
def zero (n : Nat) : CharArray n := ⟨List.replicate n 0, List.length_replicate⟩

/-- The string in the array. -/
def str (a : CharArray n) : Bytes := cstr a.bytes

/-- The string, as a function reads it that stops at the NUL. -/
def read (a : CharArray n) : Option Bytes := if 0 ∈ a.bytes then some a.str else none

/-- `strncpy(a, s, sizeof(a))`: no NUL is written when `s` fills the array. -/
def strncpy (_ : CharArray n) (s : Bytes) : CharArray n :=
  ⟨s.take n ++ List.replicate (n - s.length) 0, by simp; omega⟩

/-- `strncpy(a, s, count)` with any count; more bytes than the array has are written behind it. -/
def copy (a : CharArray n) (s : Bytes) (count : Nat) : Option (CharArray n) :=
  if h : count ≤ n then
    some ⟨s.take count ++ List.replicate (count - s.length) 0 ++ a.bytes.drop count, by
      simp only [List.length_append, List.length_take, List.length_replicate, List.length_drop,
        a.length_eq]
      omega⟩
  else none

@[simp] theorem str_zero (n : Nat) : (zero n).str = [] := by
  cases n with
  | zero => rfl
  | succ n => exact (contains_zeros n.succ_pos).cstr_eq

theorem str_strncpy (a : CharArray n) {s : Bytes} (hs : 0 ∉ s) (hlen : s.length < n) :
    (a.strncpy s).str = s := by
  obtain ⟨m, hm⟩ : ∃ m, n - s.length = m + 1 := ⟨n - s.length - 1, by omega⟩
  rw [str, strncpy]
  dsimp only
  rw [List.take_of_length_le (Nat.le_of_lt hlen), hm, List.replicate_succ, cstr_append_nul _ hs]

/-- The copy has a NUL exactly when the string, up to its own NUL, does not fill the array. -/
theorem zero_mem_strncpy_iff (a : CharArray n) (s : Bytes) :
    0 ∈ (a.strncpy s).bytes ↔ (cstr s).length < n := by
  have hbytes : (a.strncpy s).bytes = s.take n ++ List.replicate (n - s.length) 0 := rfl
  rw [hbytes, List.mem_append, List.mem_replicate]
  by_cases hmem : 0 ∈ s
  · obtain ⟨hne, rest, hs⟩ := contains_of_mem hmem
    generalize cstr s = c at hne hs
    rw [hs]
    by_cases hlen : c.length < n
    · refine iff_of_true (Or.inl ?_) hlen
      obtain ⟨k, rfl⟩ := Nat.exists_eq_add_of_lt hlen
      rw [Nat.add_assoc, List.take_length_add_append, List.take_succ_cons]
      exact List.mem_append_right _ List.mem_cons_self
    · refine iff_of_false ?_ hlen
      intro h
      rcases h with htake | ⟨hroom, -⟩
      · rw [List.take_append_of_le_length (Nat.le_of_not_lt hlen)] at htake
        exact hne (List.mem_of_mem_take htake)
      · rw [List.length_append] at hroom
        omega
  · have hall : cstr s = s := List.takeWhile_eq_self_iff.2 fun b hb => by
      simpa using fun hzero : b = 0 => hmem (hzero ▸ hb)
    rw [hall]
    constructor
    · intro h
      rcases h with htake | ⟨hroom, -⟩
      · exact absurd (List.mem_of_mem_take htake) hmem
      · omega
    · exact fun hlen => Or.inr ⟨Nat.sub_ne_zero_of_lt hlen, rfl⟩

theorem strncpy_injective {a b : CharArray n} {s t : Bytes} (hs : 0 ∉ s ∧ s.length < n)
    (ht : 0 ∉ t ∧ t.length < n) (h : a.strncpy s = b.strncpy t) : s = t := by
  rw [← a.str_strncpy hs.1 hs.2, h, b.str_strncpy ht.1 ht.2]

theorem read_strncpy (a : CharArray n) {s : Bytes} (hs : 0 ∉ s) (hlen : s.length < n) :
    (a.strncpy s).read = some s := by
  have hmem : 0 ∈ (a.strncpy s).bytes := by
    apply List.mem_append_right
    exact List.mem_replicate.2 ⟨Nat.sub_ne_zero_of_lt hlen, rfl⟩
  rw [read, if_pos hmem, a.str_strncpy hs hlen]

theorem read_zero (hn : 0 < n) : (zero n).read = some [] := by
  have hmem : 0 ∈ (zero n).bytes := List.mem_replicate.2 ⟨Nat.ne_of_gt hn, rfl⟩
  rw [read, if_pos hmem, str_zero]

/-- A string copied with its NUL is the string of the array. -/
theorem contains_copy (a : CharArray n) {s : Bytes} (hs : 0 ∉ s) (hlen : s.length < n) :
    ∃ b, a.copy s (s.length + 1) = some b ∧ Contains b.bytes s := by
  rw [copy, dif_pos (Nat.succ_le_of_lt hlen)]
  refine ⟨_, rfl, hs, a.bytes.drop (s.length + 1), ?_⟩
  dsimp only
  rw [List.take_of_length_le (Nat.le_succ _), Nat.add_sub_cancel_left, List.replicate_one,
    List.append_assoc]
  rfl

theorem copy_eq_none (a : CharArray n) {s : Bytes} {count : Nat} (h : n < count) :
    a.copy s count = none := by
  rw [copy, dif_neg (Nat.not_le_of_lt h)]

/-- Into a cleared array, `count` bytes of a string that has as many. -/
theorem copy_zero {s : Bytes} {count : Nat} (hn : count ≤ n) (hs : count ≤ s.length) :
    (zero n).copy s count = some ((zero n).strncpy (s.take count)) := by
  rw [copy, dif_pos hn, Option.some_inj, strncpy, mk.injEq, Nat.sub_eq_zero_of_le hs, zero,
    List.drop_replicate, List.length_take, Nat.min_eq_left hs, List.take_take,
    Nat.min_eq_right hn, List.replicate_zero, List.append_nil]

theorem zero_notMem_str (a : CharArray n) (h : 0 ∈ a.bytes) : 0 ∉ a.str :=
  (contains_of_mem h).1

/-- A string with its NUL is not longer than the array. -/
theorem str_length_lt (a : CharArray n) (h : 0 ∈ a.bytes) : a.str.length < n := by
  obtain ⟨-, rest, hrest⟩ := contains_of_mem h
  have hlen := congrArg List.length hrest
  rw [a.length_eq, List.length_append, List.length_cons] at hlen
  rw [str]
  omega

end CharArray
end CFunction
