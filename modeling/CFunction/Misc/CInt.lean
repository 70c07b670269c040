import Mathlib.Tactic.Ring

/-!
# `int` arithmetic

A value of the C type `int` is a Lean `Int`; an operation whose result may leave the 32-bit
range is followed by `toInt32`, which wraps as the compiled code does.
-/

namespace CFunction

/-- The value range of a 32-bit `int`. -/
def InInt (x : Int) : Prop := -2147483648 ≤ x ∧ x ≤ 2147483647

instance (x : Int) : Decidable (InInt x) := inferInstanceAs (Decidable (_ ∧ _))

/-- Conversion to a 32-bit `int`, modulo `2^32`. -/
def toInt32 (x : Int) : Int := (x + 2147483648) % 4294967296 - 2147483648

theorem toInt32_of_inInt {x : Int} (h : InInt x) : toInt32 x = x := by
  obtain ⟨h1, h2⟩ := h
  unfold toInt32
  omega

theorem toInt32_inInt (x : Int) : InInt (toInt32 x) := by
  unfold InInt toInt32
  omega

/-- The conversion in between is not seen. -/
theorem toInt32_add (x y : Int) : toInt32 (toInt32 x + y) = toInt32 (x + y) := by
  unfold toInt32
  omega

/-- Adding 1 wraps at the last `int` only. -/
theorem toInt32_succ_eq_iff {x : Int} (h : InInt x) :
    toInt32 (x + 1) = x + 1 ↔ x < 2147483647 := by
  obtain ⟨h1, h2⟩ := h
  unfold toInt32
  omega

theorem toInt32_eq_nat {x : Int} {n : Nat} (hx : x = n) (hn : n ≤ 2147483647) :
    toInt32 x = n := by
  rw [hx, toInt32_of_inInt ⟨by omega, by omega⟩]

/-- Conversion of an `int` to a 64-bit `size_t`. -/
def toSize (x : Int) : Nat := (x % 18446744073709551616).toNat

theorem toSize_nat {n : Nat} (hn : n ≤ 2147483647) : toSize n = n := by
  unfold toSize
  omega

/-- The remainder `a % b` of two `int`s; dividing by zero has no result. -/
def intMod (a b : Int) : Option Int := if b = 0 then none else some (a.tmod b)

theorem intMod_nat (a : Nat) {b : Nat} (hb : 0 < b) :
    intMod a b = some ((a % b : Nat) : Int) := by
  rw [intMod, if_neg (by omega), Int.tmod_eq_emod_of_nonneg (by omega)]
  rfl

end CFunction
