import Mathlib.Data.Nat.ModEq
import Mathlib.Logic.Function.Basic

/-!
# Semaphores and numbered slots

Two threads that hand items over in an array of `N` slots: item number `j` goes to slot `j % N`.
`Window` says which of the items stored so far are still in their slots.
-/

namespace CFunction

/-- `sem_wait`: the value goes down, and with 0 the thread waits. -/
def semWait (v : Nat) : Option Nat := if v = 0 then none else some (v - 1)

/-- `sem_post` -/
def semPost (v : Nat) : Nat := v + 1

theorem semWait_eq_some_iff {v w : Nat} : semWait v = some w ↔ v = w + 1 := by
  unfold semWait
  split
  case isTrue h => exact iff_of_false (by simp) (by omega)
  case isFalse h =>
    rw [Option.some.injEq]
    omega

/-- A thread that goes on from `sem_wait`. -/
theorem bind_semWait_eq_some_iff {σ : Type*} {v : Nat} {f : Nat → Option σ} {t : σ} :
    (semWait v).bind f = some t ↔ ∃ w, v = w + 1 ∧ f w = some t := by
  simp only [Option.bind_eq_some_iff, semWait_eq_some_iff]

/-- A thread that waits. -/
theorem bind_semWait_eq_none_iff {σ : Type*} {v : Nat} {f : Nat → σ} :
    ((semWait v).bind fun w => some (f w)) = none ↔ v = 0 := by
  cases v with
  | zero => exact iff_of_true rfl rfl
  | succ v => exact iff_of_false nofun (Nat.succ_ne_zero v)

namespace BoundedBuffer

variable {α : Type*} {N : Nat} [NeZero N]

/-- The slot of item number `j`. -/
abbrev slot (N : Nat) [NeZero N] (j : Nat) : Fin N := Fin.ofNat N j

/-- Items less than `N` apart have different slots. -/
theorem slot_ne {i j : Nat} (hlt : i < j) (hle : j < i + N) : slot N i ≠ slot N j := by
  intro h
  have hmod : i ≡ j [MOD N] := congrArg Fin.val h
  have hdvd := (Nat.modEq_iff_dvd' (Nat.le_of_lt hlt)).1 hmod
  have hle' := Nat.le_of_dvd (by omega) hdvd
  omega

/-- The items of `xs` from number `lo` on are in their slots. -/
def Window (buff : Fin N → α) (xs : List α) (lo : Nat) : Prop :=
  ∀ j a, lo ≤ j → xs[j]? = some a → buff (slot N j) = a

theorem window_nil (buff : Fin N → α) (lo : Nat) : Window buff [] lo := by
  intro j a _ h
  simp at h

variable {buff : Fin N → α} {xs : List α} {lo : Nat}

theorem Window.mono {lo' : Nat} (h : Window buff xs lo) (hle : lo ≤ lo') : Window buff xs lo' := by
  intro j a hj
  exact h j a (Nat.le_trans hle hj)

/-- Storing the next item keeps the others, as long as all of them are less than `N` apart. -/
theorem Window.put (h : Window buff xs lo) (hroom : xs.length < lo + N) (a : α) :
    Window (Function.update buff (slot N xs.length) a) (xs ++ [a]) lo := by
  intro j b hj hb
  rcases Nat.lt_trichotomy j xs.length with hlt | heq | hgt
  · rw [List.getElem?_append_left hlt] at hb
    rw [Function.update_of_ne (slot_ne hlt (by omega))]
    exact h j b hj hb
  · subst heq
    rw [Function.update_self]
    simpa using hb
  · rw [List.getElem?_eq_none (by rw [List.length_append, List.length_singleton]; omega)] at hb
    cases hb

/-- Overwriting the slot of the item in front keeps the others. -/
theorem Window.overwrite (h : Window buff xs (lo + 1)) (hroom : xs.length ≤ lo + N) (a : α) :
    Window (Function.update buff (slot N lo) a) xs (lo + 1) := by
  intro j b hj hb
  have hlt : j < xs.length := (List.getElem?_eq_some_iff.1 hb).1
  rw [Function.update_of_ne (slot_ne (by omega) (by omega)).symm]
  exact h j b hj hb

end BoundedBuffer
end CFunction
