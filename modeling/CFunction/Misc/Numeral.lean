import CFunction.Misc.CString
import Mathlib.Data.Nat.Digits.Lemmas

/-!
# Numerals

The digits of a number in a radix up to 16, least significant first, with one digit for 0, and
the reading of a numeral that stands most significant digit first.
-/

namespace CFunction.Numeral

open CString

/-- The digits of `n`, least significant first. -/
def digitsOf (radix n : Nat) : List Nat := if n = 0 then [0] else Nat.digits radix n

/-- The character of a digit. -/
def digitChar (d : Nat) : UInt8 := if d < 10 then UInt8.ofNat (48 + d) else UInt8.ofNat (55 + d)

/-- The digit that a character stands for. -/
def digitValue (c : UInt8) : Option Nat :=
  if 48 ≤ c.toNat ∧ c.toNat ≤ 57 then some (c.toNat - 48)
  else if 65 ≤ c.toNat ∧ c.toNat ≤ 70 then some (c.toNat - 55)
  else none

/-- The number that a nonempty string of digits denotes. -/
def readDigits (radix : Nat) (s : Bytes) : Option Nat :=
  if s = [] then none
  else s.foldlM (fun v c => do
    let d ← digitValue c
    if d < radix then some (radix * v + d) else none) 0

/-- The integer that a numeral denotes, which may have a sign. -/
def readNumeral (radix : Nat) : Bytes → Option Int
  | [] => none
  | c :: s =>
    if c = ascii '-' then (readDigits radix s).map fun n : Nat => -(n : Int)
    else (readDigits radix (c :: s)).map fun n : Nat => (n : Int)

variable {radix n d : Nat}

/-- The last digit and the digits of the quotient, if that is not zero. -/
theorem digitsOf_step (hr : 1 < radix) (n : Nat) :
    digitsOf radix n = n % radix :: (if n / radix ≠ 0 then digitsOf radix (n / radix) else []) := by
  by_cases h0 : n = 0
  · subst h0
    simp [digitsOf]
  · rw [digitsOf, if_neg h0, Nat.digits_def' hr (Nat.pos_of_ne_zero h0)]
    by_cases hq : n / radix = 0
    · simp [hq]
    · simp [hq, digitsOf]

theorem digitsOf_ne_nil (hr : 1 < radix) (n : Nat) : digitsOf radix n ≠ [] := by
  rw [digitsOf_step hr]
  exact List.cons_ne_nil _ _

theorem lt_of_mem_digitsOf (hr : 1 < radix) (h : d ∈ digitsOf radix n) : d < radix := by
  unfold digitsOf at h
  split at h
  · rw [List.mem_singleton.1 h]
    exact Nat.zero_lt_of_lt hr
  · exact Nat.digits_lt_base hr h

theorem ofDigits_digitsOf (radix n : Nat) : Nat.ofDigits radix (digitsOf radix n) = n := by
  unfold digitsOf
  split
  · rename_i h0
    rw [h0]
    rfl
  · exact Nat.ofDigits_digits radix n

/-- A number below `radix ^ k` has at most `k` digits. -/
theorem length_digitsOf_le {k : Nat} (hr : 1 < radix) (hk : 0 < k) (hn : n < radix ^ k) :
    (digitsOf radix n).length ≤ k := by
  unfold digitsOf
  split
  · exact hk
  · exact (Nat.digits_length_le_iff hr n).2 hn

/-- The leading digit is not zero, except for the number 0. -/
theorem digitsOf_leading (h : (digitsOf radix n).reverse.head? = some 0) :
    digitsOf radix n = [0] := by
  by_cases h0 : n = 0
  · rw [digitsOf, if_pos h0]
  · have hne : Nat.digits radix n ≠ [] := Nat.digits_ne_nil_iff_ne_zero.2 h0
    rw [digitsOf, if_neg h0, List.head?_reverse, List.getLast?_eq_some_getLast hne] at h
    exact absurd (Option.some.inj h) (Nat.getLast_digit_ne_zero radix h0)

/-! ### Characters -/

theorem digitValue_digitChar (h : d < 16) : digitValue (digitChar d) = some d := by
  have hall : ∀ d : Fin 16, digitValue (digitChar d) = some d.val := by decide
  exact hall ⟨d, h⟩

theorem digitChar_inj {e : Nat} (hd : d < 16) (he : e < 16) (h : digitChar d = digitChar e) :
    d = e := by
  have hv := congrArg digitValue h
  rw [digitValue_digitChar hd, digitValue_digitChar he] at hv
  exact Option.some.inj hv

/-- A digit is neither a NUL nor a sign. -/
theorem digitChar_ne (h : d < 16) : digitChar d ≠ 0 ∧ digitChar d ≠ ascii '-' := by
  have hall : ∀ d : Fin 16, digitChar d ≠ 0 ∧ digitChar d ≠ ascii '-' := by decide
  exact hall ⟨d, h⟩

/-- Reading the characters of digits, most significant first, gives the number. -/
theorem readDigits_digits (hr : radix ≤ 16) {ds : List Nat} (hne : ds ≠ [])
    (hds : ∀ d ∈ ds, d < radix) :
    readDigits radix (ds.reverse.map digitChar) = some (Nat.ofDigits radix ds) := by
  have hfold : (ds.reverse.map digitChar).foldlM (fun v c => do
      let d ← digitValue c
      if d < radix then some (radix * v + d) else none) 0 = some (Nat.ofDigits radix ds) := by
    clear hne
    induction ds with
    | nil => rfl
    | cons d ds ih =>
      have hd := hds d List.mem_cons_self
      rw [List.reverse_cons, List.map_append, List.foldlM_append,
        ih fun e he => hds e (List.mem_cons_of_mem d he)]
      simp [digitValue_digitChar (Nat.lt_of_lt_of_le hd hr), hd, Nat.ofDigits_cons, Nat.add_comm]
  rw [readDigits, if_neg (by simpa using hne), hfold]

end CFunction.Numeral
