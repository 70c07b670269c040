import Mathlib.Data.Nat.Bitwise
import Mathlib.Data.List.Basic
import Mathlib.Tactic.Ring

/-!
# Bit strings

Bits are written most significant first, as a number is. `groups k` cuts a bit string into its
successive pieces of `k` bits and `zeroPad k` completes the last one.
-/

namespace CFunction.Bits

/-- The `w` low bits of `v`, most significant first. -/
def bitsOf : Nat → Nat → List Bool
  | 0, _ => []
  | w + 1, v => v.testBit w :: bitsOf w v

/-- The number that a bit string writes. -/
def value (l : List Bool) : Nat := l.foldl (fun v b => 2 * v + b.toNat) 0

/-- The successive pieces of `k` elements; what is left over at the end is dropped. -/
def groups {α : Type*} (k : Nat) (l : List α) : List (List α) :=
  (List.range (l.length / k)).map fun i => (l.drop (k * i)).take k

/-- Zero bits up to a multiple of `k`. -/
def zeroPad (k : Nat) (l : List Bool) : List Bool :=
  l ++ List.replicate ((k - l.length % k) % k) false

@[simp] theorem length_bitsOf (w v : Nat) : (bitsOf w v).length = w := by
  induction w with
  | zero => rfl
  | succ w ih => rw [bitsOf, List.length_cons, ih]

/-- The high bits of a number are those of its quotient. -/
theorem bitsOf_add (m n v : Nat) : bitsOf (m + n) v = bitsOf m (v / 2 ^ n) ++ bitsOf n v := by
  induction m with
  | zero => rw [Nat.zero_add]; rfl
  | succ m ih =>
    rw [Nat.succ_add, bitsOf, bitsOf, ih, Nat.testBit_div_two_pow, List.cons_append]

theorem bitsOf_zero (w : Nat) : bitsOf w 0 = List.replicate w false := by
  induction w with
  | zero => rfl
  | succ w ih => rw [bitsOf, ih, Nat.zero_testBit]; rfl

theorem foldl_value (l : List Bool) (a : Nat) :
    l.foldl (fun v b => 2 * v + b.toNat) a = a * 2 ^ l.length + value l := by
  induction l generalizing a with
  | nil => simp [value]
  | cons b l ih =>
    rw [value, List.foldl_cons, List.foldl_cons, ih, ih (2 * 0 + b.toNat), List.length_cons,
      Nat.pow_succ]
    ring

theorem value_append (l l' : List Bool) : value (l ++ l') = value l * 2 ^ l'.length + value l' := by
  rw [value, List.foldl_append, foldl_value]
  rfl

theorem value_cons (b : Bool) (l : List Bool) :
    value (b :: l) = b.toNat * 2 ^ l.length + value l := by
  rw [value, List.foldl_cons, foldl_value]
  simp

theorem value_bitsOf (w v : Nat) : value (bitsOf w v) = v % 2 ^ w := by
  induction w with
  | zero => rw [Nat.pow_zero, Nat.mod_one]; rfl
  | succ w ih =>
    rw [bitsOf, value_cons, ih, length_bitsOf, Nat.toNat_testBit, Nat.mod_pow_succ]
    ring

theorem groups_cons {α : Type*} {k : Nat} (hk : 0 < k) {g l : List α} (hg : g.length = k) :
    groups k (g ++ l) = g :: groups k l := by
  have hcount : (g ++ l).length / k = l.length / k + 1 := by
    rw [List.length_append, hg, Nat.add_comm, Nat.add_div_right _ hk]
  rw [groups, hcount, List.range_succ_eq_map, List.map_cons, List.map_map]
  congr 1
  · rw [Nat.mul_zero, List.drop_zero, ← hg, List.take_left]
  · apply List.map_congr_left
    intro i _
    have hpos : k * (i + 1) = g.length + k * i := by rw [hg, Nat.mul_succ, Nat.add_comm]
    rw [Function.comp, Nat.succ_eq_add_one, hpos, ← List.drop_drop, List.drop_left]

/-- A string put together from pieces of `k` elements is cut into these pieces. -/
theorem groups_flatten {α : Type*} {k : Nat} (hk : 0 < k) (gs : List (List α))
    (hgs : ∀ g ∈ gs, g.length = k) : groups k gs.flatten = gs := by
  induction gs with
  | nil => simp [groups]
  | cons g gs ih =>
    rw [List.flatten_cons, groups_cons hk (hgs g List.mem_cons_self),
      ih fun g' h => hgs g' (List.mem_cons_of_mem g h)]

/-- Whole pieces in front do not change what is missing in the last one. -/
theorem zeroPad_append {k : Nat} {l l' : List Bool} (hl : k ∣ l.length) :
    zeroPad k (l ++ l') = l ++ zeroPad k l' := by
  have hmod : (l ++ l').length % k = l'.length % k := by
    obtain ⟨m, hm⟩ := hl
    rw [List.length_append, hm, Nat.mul_add_mod]
  rw [zeroPad, zeroPad, hmod, List.append_assoc]

end CFunction.Bits
