import CFunction.Misc.CString
import Mathlib.Data.Int.Init

/-!
# Flat byte memory

A byte for every address. A buffer is the stretch of memory from its first address on, so that
an access in front of it or behind it meets whatever stands there.
-/

namespace CFunction

open CString

abbrev ByteMemory := Int → UInt8

namespace ByteMemory

/-- `*a = b`. -/
def set (mem : ByteMemory) (a : Int) (b : UInt8) : ByteMemory := fun x => if x = a then b else mem x

/-- The `n` bytes from `a` on. -/
def slice (mem : ByteMemory) (a : Int) : Nat → Bytes
  | 0 => []
  | n + 1 => mem a :: slice mem (a + 1) n

/-- The memory with `bs` stored from `a` on. -/
def store (mem : ByteMemory) (a : Int) : Bytes → ByteMemory
  | [] => mem
  | b :: bs => store (mem.set a b) (a + 1) bs

/-- `memcpy(dst, src, n)`. Copying between overlapping ranges has no result. -/
def memcpy (mem : ByteMemory) (dst src n : Int) : Option ByteMemory :=
  if 0 ≤ n ∧ (dst + n ≤ src ∨ src + n ≤ dst) then some (mem.store dst (mem.slice src n.toNat))
  else none

/-- The string at `a`, looked for in `fuel` bytes. -/
def cstrAt (mem : ByteMemory) : Nat → Int → Option Bytes
  | 0, _ => none
  | fuel + 1, a => if mem a = 0 then some [] else (cstrAt mem fuel (a + 1)).map (mem a :: ·)

variable {mem mem' : ByteMemory}

@[simp] theorem set_self (a : Int) (b : UInt8) : mem.set a b a = b := if_pos rfl

theorem set_of_ne {a x : Int} (b : UInt8) (h : x ≠ a) : mem.set a b x = mem x := if_neg h

@[simp] theorem slice_length (a : Int) (n : Nat) : (mem.slice a n).length = n := by
  induction n generalizing a with
  | zero => rfl
  | succ n ih => rw [slice, List.length_cons, ih]

theorem slice_add (a : Int) (m n : Nat) :
    mem.slice a (m + n) = mem.slice a m ++ mem.slice (a + m) n := by
  induction m generalizing a with
  | zero => simp [slice]
  | succ m ih =>
    rw [Nat.succ_add, slice, ih, slice, List.cons_append]
    congr 3
    omega

theorem slice_congr {a : Int} {n : Nat} (h : ∀ x, a ≤ x → x < a + n → mem x = mem' x) :
    mem.slice a n = mem'.slice a n := by
  induction n generalizing a with
  | zero => rfl
  | succ n ih =>
    rw [slice, slice, h a (by omega) (by omega), ih]
    intro x hax hxn
    exact h x (by omega) (by omega)

theorem slice_append {a : Int} {x y : Bytes}
    (h : mem.slice a (x.length + y.length) = x ++ y) :
    mem.slice a x.length = x ∧ mem.slice (a + x.length) y.length = y := by
  rw [slice_add] at h
  exact List.append_inj h (slice_length a x.length)

theorem slice_set (a : Int) (n i : Nat) (b : UInt8) :
    (mem.set (a + i) b).slice a n = (mem.slice a n).set i b := by
  induction n generalizing a i with
  | zero => rfl
  | succ n ih =>
    rw [slice, slice]
    cases i with
    | zero =>
      rw [Int.natCast_zero, Int.add_zero, set_self, List.set_cons_zero]
      exact congrArg (b :: ·) (slice_congr fun x hx _ => set_of_ne b (by omega))
    | succ i =>
      have hnext : a + ((i + 1 : Nat) : Int) = a + 1 + i := by omega
      rw [hnext, ih, set_of_ne b (by omega), List.set_cons_succ]

theorem slice_take {a : Int} {k n : Nat} (h : k ≤ n) :
    (mem.slice a n).take k = mem.slice a k := by
  obtain ⟨j, rfl⟩ := Nat.exists_eq_add_of_le h
  rw [slice_add]
  exact List.take_left' (slice_length a k)

theorem slice_drop {a : Int} {k n : Nat} (h : k ≤ n) :
    (mem.slice a n).drop k = mem.slice (a + k) (n - k) := by
  obtain ⟨j, rfl⟩ := Nat.exists_eq_add_of_le h
  rw [slice_add, Nat.add_sub_cancel_left]
  exact List.drop_left' (slice_length a k)

theorem mem_slice {a x : Int} {n : Nat} (hx : a ≤ x) (hn : x < a + n) :
    mem x ∈ mem.slice a n := by
  induction n generalizing a with
  | zero => omega
  | succ n ih =>
    rw [slice, List.mem_cons]
    by_cases hax : x = a
    · exact .inl (congrArg mem hax)
    · exact .inr (ih (by omega) (by omega))

/-- The slice that starts at a byte of a slice. -/
theorem slice_eq_cons {a : Int} {n : Nat} {b : UInt8} {bs : Bytes} (h : mem.slice a n = b :: bs) :
    mem a = b ∧ n = bs.length + 1 ∧ mem.slice (a + 1) (n - 1) = bs := by
  cases n with
  | zero => cases h
  | succ n =>
    rw [slice] at h
    injection h with hb hbs
    exact ⟨hb, by rw [← hbs, slice_length], hbs⟩

theorem store_of_out {a x : Int} {bs : Bytes} (h : x < a ∨ a + bs.length ≤ x) :
    mem.store a bs x = mem x := by
  induction bs generalizing mem a with
  | nil => rfl
  | cons b bs ih =>
    rw [List.length_cons] at h
    rw [store, ih (by omega), set_of_ne b (by omega)]

theorem slice_store (a : Int) (bs : Bytes) : (mem.store a bs).slice a bs.length = bs := by
  induction bs generalizing mem a with
  | nil => rfl
  | cons b bs ih =>
    rw [List.length_cons, slice, store, ih, store_of_out (Or.inl (by omega)), set_self]

theorem cstrAt_eq {a : Int} {n fuel : Nat} (hne : 0 ∉ mem.slice a n) (hnul : mem (a + n) = 0)
    (hfuel : n < fuel) : mem.cstrAt fuel a = some (mem.slice a n) := by
  induction n generalizing a fuel with
  | zero =>
    obtain ⟨fuel, rfl⟩ := Nat.exists_eq_add_one.2 hfuel
    rw [cstrAt, if_pos (by simpa using hnul)]
    rfl
  | succ n ih =>
    obtain ⟨fuel, rfl⟩ : ∃ m, fuel = m + 1 := Nat.exists_eq_add_one.2 (by omega)
    rw [slice, List.mem_cons, not_or] at hne
    have hnext : mem (a + 1 + n) = 0 := by
      rw [← hnul]
      congr 1
      omega
    rw [cstrAt, if_neg (Ne.symm hne.1), ih hne.2 hnext (by omega)]
    rfl

end ByteMemory
end CFunction
