import CFunction.Number.CommonItoa
import CFunction.Misc.Numeral
import Mathlib.Data.List.Induction

/-!
# `itoa` writes the numeral

The first loop writes the digits behind the sign, least significant first. The second swaps the
bytes from the outside in: before each round the bytes in the middle are still to be reversed,
and the round is the step from `x :: mid ++ [y]` to `mid`.
-/

namespace CFunction
namespace Itoa

open CString Numeral

theorem index_getElem? {d : Nat} (h : d < 16) : index[d]? = some (digitChar d) := by
  have hall : ∀ d : Fin 16, index[d.val]? = some (digitChar d.val) := by decide
  exact hall ⟨d, h⟩

theorem store_append (pre post : Bytes) (x b : UInt8) :
    store (pre ++ x :: post) pre.length b = some (pre ++ b :: post) := by
  rw [store_nat b (by simp), List.set_append_right _ _ (Nat.le_refl _), Nat.sub_self]
  rfl

theorem load_append (pre post : Bytes) (x : UInt8) :
    load (pre ++ x :: post) pre.length = some x := by
  rw [load_nat, List.getElem?_append_right (Nat.le_refl _), Nat.sub_self]
  rfl

/-! ### The digits -/

/-- The loop writes the digits of `unum` over `old`. -/
theorem digitLoop_spec {radix : Nat} (hr : 1 < radix) (hr16 : radix ≤ 16) :
    ∀ (fuel unum : Nat) (pre old post : Bytes), old.length = (digitsOf radix unum).length →
      old.length ≤ fuel → pre.length + old.length ≤ 2147483647 →
      digitLoop radix fuel (pre ++ old ++ post) pre.length unum =
        some (pre ++ (digitsOf radix unum).map digitChar ++ post,
          ((pre.length + old.length : Nat) : Int)) := by
  intro fuel
  induction fuel with
  | zero =>
    intro unum pre old post hlen hfuel _
    have hpos := List.length_pos_of_ne_nil (digitsOf_ne_nil hr unum)
    exact absurd hfuel (by omega)
  | succ fuel ih =>
    intro unum pre old post hlen hfuel int
    rw [digitsOf_step hr] at hlen ⊢
    cases old with
    | nil => exact absurd hlen (by simp)
    | cons x old =>
      have hd : unum % radix < 16 := Nat.lt_of_lt_of_le (Nat.mod_lt _ (by omega)) hr16
      have hstore : store (pre ++ x :: old ++ post) pre.length (digitChar (unum % radix)) =
          some (pre ++ [digitChar (unum % radix)] ++ old ++ post) := by
        rw [List.append_assoc, List.cons_append, store_append]
        simp
      simp only [List.length_cons] at hlen hfuel int
      have hnext : toInt32 ((pre.length : Int) + 1) =
          ((pre ++ [digitChar (unum % radix)]).length : Nat) := by
        rw [List.length_append, List.length_singleton]
        exact toInt32_eq_nat rfl (by omega)
      rw [digitLoop, if_neg (by omega)]
      simp only [index_getElem? hd, hstore, hnext, Option.bind_eq_bind, Option.bind_some]
      by_cases hq : unum / radix = 0
      · rw [if_neg (not_not.2 hq)] at hlen ⊢
        obtain rfl : old = [] := List.eq_nil_of_length_eq_zero (by simpa using hlen)
        rw [if_neg (not_not.2 hq)]
        simp
      · rw [if_pos hq] at hlen ⊢
        rw [if_pos hq, ih (unum / radix) (pre ++ [digitChar (unum % radix)]) old post (by omega)
          (by omega) (by rw [List.length_append, List.length_singleton]; omega)]
        simp only [List.length_append, List.length_cons, List.length_nil, List.map_cons,
          List.append_assoc, List.cons_append, List.nil_append]
        rw [show pre.length + (0 + 1) + old.length = pre.length + (old.length + 1) by omega]

/-! ### The reversal -/

/-- Once the bytes still to be swapped are at most one, the loop is over, except that without a
sign the byte in the middle may be swapped with itself. -/
theorem swapLoop_done {i k j : Int} (fuel : Nat) (str : Bytes) (hi : 1 ≤ i) (h : i < 2 * j + 1) :
    swapLoop i k fuel str j = some str := by
  have hj : ¬ j ≤ (i - 1).tdiv 2 := by
    rw [Int.tdiv_eq_ediv_of_nonneg (by omega)]
    omega
  cases fuel with
  | zero => rw [swapLoop, if_neg hj]
  | succ fuel => rw [swapLoop, if_neg hj]

/-- The loop reverses the bytes between `pre` and `post`, by induction on these from both
ends. -/
theorem swapLoop_spec {i k : Int} (hi : 1 ≤ i) (int : i ≤ 2147483647) (hk : k = 0 ∨ k = 1)
    (mid : Bytes) : ∀ (fuel : Nat) (pre post : Bytes),
      i + k = 2 * pre.length + mid.length → mid.length ≤ fuel →
      swapLoop i k fuel (pre ++ mid ++ post) pre.length =
        some (pre ++ mid.reverse ++ post) := by
  induction mid using List.bidirectionalRec with
  | nil =>
    intro fuel pre post hpos _
    rw [List.length_nil] at hpos
    exact swapLoop_done fuel _ hi (by omega)
  | singleton x =>
    intro fuel pre post hpos hfuel
    rw [List.length_singleton] at hpos hfuel
    rcases hk with rfl | rfl
    · obtain ⟨fuel, rfl⟩ : ∃ n, fuel = n + 1 := Nat.exists_eq_add_one.2 hfuel
      have hj : (pre.length : Int) ≤ (i - 1).tdiv 2 := by
        rw [Int.tdiv_eq_ediv_of_nonneg (by omega)]
        omega
      have hself : i - 1 + 0 - (pre.length : Int) = pre.length := by omega
      rw [List.append_assoc, List.singleton_append, swapLoop, if_pos hj, hself]
      simp only [load_append, store_append, Option.bind_eq_bind, Option.bind_some]
      rw [toInt32_of_inInt ⟨by omega, by omega⟩, swapLoop_done fuel _ hi (by omega)]
      simp
    · exact swapLoop_done fuel _ hi (by omega)
  | cons_append x mid y ih =>
    intro fuel pre post hpos hfuel
    simp only [List.length_cons, List.length_append, List.length_nil] at hpos hfuel
    obtain ⟨fuel, rfl⟩ : ∃ n, fuel = n + 1 := Nat.exists_eq_add_one.2 (by omega)
    have hj : (pre.length : Int) ≤ (i - 1).tdiv 2 := by
      rw [Int.tdiv_eq_ediv_of_nonneg (by omega)]
      omega
    have hmirror : i - 1 + k - (pre.length : Int) = ((pre ++ x :: mid).length : Nat) := by
      rw [List.length_append, List.length_cons]
      omega
    have hmirror' : ((pre ++ x :: mid).length : Int) = ((pre ++ y :: mid).length : Nat) := by
      rw [List.length_append, List.length_append, List.length_cons, List.length_cons]
    have hstr : pre ++ (x :: (mid ++ [y])) ++ post = pre ++ x :: (mid ++ y :: post) := by simp
    have hstr' : pre ++ x :: (mid ++ y :: post) = (pre ++ x :: mid) ++ y :: post := by simp
    have hload : load (pre ++ x :: (mid ++ y :: post)) ((pre ++ x :: mid).length : Nat) =
        some y := by
      rw [hstr', load_append]
    have hstore : store (pre ++ y :: (mid ++ y :: post)) ((pre ++ x :: mid).length : Nat) x =
        some (pre ++ y :: mid ++ x :: post) := by
      rw [hmirror', show pre ++ y :: (mid ++ y :: post) = (pre ++ y :: mid) ++ y :: post by simp,
        store_append]
    rw [hstr, swapLoop, if_pos hj, hmirror]
    simp only [load_append, store_append, hload, hstore, Option.bind_eq_bind, Option.bind_some]
    have hnext : toInt32 ((pre.length : Int) + 1) = ((pre ++ [y]).length : Nat) := by
      rw [List.length_append, List.length_singleton]
      exact toInt32_eq_nat rfl (by omega)
    have hmid := ih fuel (pre ++ [y]) (x :: post)
      (by rw [List.length_append, List.length_singleton]; omega) (by omega)
    rw [hnext, show pre ++ y :: mid ++ x :: post = pre ++ [y] ++ mid ++ x :: post by simp, hmid]
    simp

/-! ### The numeral -/

/-- The number whose digits are written. -/
def magnitude (radix : Nat) (num : Int) : Nat :=
  if radix = 10 ∧ num < 0 then toUnsigned (-num) else toUnsigned num

/-- The sign. -/
def sign (radix : Nat) (num : Int) : Bytes := if radix = 10 ∧ num < 0 then [ascii '-'] else []

/-- The text that `itoa` writes. -/
def numeral (radix : Nat) (num : Int) : Bytes :=
  sign radix num ++ (digitsOf radix (magnitude radix num)).reverse.map digitChar

/-- A text without its sign. -/
def unsignedPart (s : Bytes) : Bytes := if s.head? = some (ascii '-') then s.tail else s

/-- `s` is the numeral of `num`: of `num` itself in radix 10, and of `num` modulo `2^32` in every
other radix. -/
structure IsNumeral (radix : Nat) (num : Int) (s : Bytes) : Prop where
  reads : readNumeral radix s = some (if radix = 10 then num else num % 4294967296)
  sign : s.head? = some (ascii '-') ↔ radix = 10 ∧ num < 0
  digits : ∀ c ∈ unsignedPart s, c ∈ text "0123456789ABCDEF"
  leading : (unsignedPart s).head? = some (ascii '0') → s = [ascii '0']
  fits : radix = 10 ∨ radix = 16 → s.length + 1 ≤ 12

variable {radix : Nat} {num : Int}

theorem magnitude_lt (radix : Nat) (num : Int) : magnitude radix num < 2 ^ 32 := by
  unfold magnitude toUnsigned
  split <;> omega

/-- The digits as characters, most significant first. -/
theorem digits_facts (hr : 1 < radix) (hr16 : radix ≤ 16) (n : Nat) :
    ∃ c cs, (digitsOf radix n).reverse.map digitChar = c :: cs ∧ c ≠ ascii '-' ∧
      (∀ b ∈ c :: cs, b ≠ 0 ∧ b ∈ text "0123456789ABCDEF") ∧
      (c = ascii '0' → digitsOf radix n = [0]) := by
  have hlt : ∀ d ∈ (digitsOf radix n).reverse, d < 16 := fun d hd =>
    Nat.lt_of_lt_of_le (lt_of_mem_digitsOf hr (List.mem_reverse.1 hd)) hr16
  obtain ⟨d, ds, hds⟩ := List.exists_cons_of_ne_nil
    (fun h => digitsOf_ne_nil hr n (List.reverse_eq_nil_iff.1 h))
  rw [hds] at hlt ⊢
  have hd := hlt d List.mem_cons_self
  refine ⟨digitChar d, ds.map digitChar, rfl, (digitChar_ne hd).2, fun b hb => ?_, fun h => ?_⟩
  · rw [← List.map_cons, List.mem_map] at hb
    obtain ⟨e, he, rfl⟩ := hb
    have hall : ∀ e : Fin 16, digitChar e ∈ text "0123456789ABCDEF" := by decide
    exact ⟨(digitChar_ne (hlt e he)).1, hall ⟨e, hlt e he⟩⟩
  · apply digitsOf_leading
    have h0 : d = 0 := digitChar_inj hd (by decide) h
    rw [hds, h0]
    rfl

theorem length_numeral_le (hr : radix = 10 ∨ radix = 16) (int : InInt num) :
    (numeral radix num).length + 1 ≤ 12 := by
  obtain ⟨h1, h2⟩ := int
  rw [numeral, List.length_append, List.length_map, List.length_reverse]
  have hsign : (sign radix num).length ≤ 1 := by
    unfold sign
    split <;> simp
  rcases hr with rfl | rfl
  · have hlt : magnitude 10 num < 10 ^ 10 := Nat.lt_trans (magnitude_lt 10 num) (by decide)
    have hlen := length_digitsOf_le (by decide) (by decide) hlt
    omega
  · have hlt : magnitude 16 num < 16 ^ 8 := Nat.lt_of_lt_of_le (magnitude_lt 16 num) (by decide)
    have hlen := length_digitsOf_le (by decide) (by decide) hlt
    omega

theorem numeral_isNumeral (hr : 2 ≤ radix) (hr16 : radix ≤ 16) (int : InInt num) :
    IsNumeral radix num (numeral radix num) := by
  obtain ⟨c, cs, hdigits, hc, hall, hzero⟩ := digits_facts hr hr16 (magnitude radix num)
  have hread : readDigits radix (c :: cs) = some (magnitude radix num) := by
    rw [← hdigits, readDigits_digits hr16 (digitsOf_ne_nil hr _) fun d => lt_of_mem_digitsOf hr,
      ofDigits_digitsOf]
  have hfits : radix = 10 ∨ radix = 16 → (numeral radix num).length + 1 ≤ 12 := fun h =>
    length_numeral_le h int
  obtain ⟨h1, h2⟩ := int
  rw [numeral, hdigits] at hfits ⊢
  by_cases neg : radix = 10 ∧ num < 0
  · have hmag : -(magnitude radix num : Int) = num := by
      rw [magnitude, if_pos neg, toUnsigned]
      omega
    rw [sign, if_pos neg, List.singleton_append] at hfits ⊢
    have hpart : unsignedPart (ascii '-' :: c :: cs) = c :: cs := rfl
    refine ⟨?_, ⟨fun _ => neg, fun _ => rfl⟩, fun b hb => ?_, fun h => ?_, hfits⟩
    · rw [readNumeral, if_pos rfl, hread, Option.map_some, hmag, if_pos neg.1]
    · rw [hpart] at hb
      exact (hall b hb).2
    · -- a negative number is not 0
      rw [hpart] at h
      have h0 := ofDigits_digitsOf radix (magnitude radix num)
      rw [hzero (Option.some.inj h)] at h0
      have : magnitude radix num = 0 := h0.symm
      omega
  · have hmag : (magnitude radix num : Int) = if radix = 10 then num else num % 4294967296 := by
      rw [magnitude, if_neg neg, toUnsigned]
      split <;> omega
    have hhead : ¬ (c :: cs).head? = some (ascii '-') := fun h => hc (Option.some.inj h)
    have hpart : unsignedPart (c :: cs) = c :: cs := if_neg hhead
    rw [sign, if_neg neg, List.nil_append] at hfits ⊢
    refine ⟨?_, ⟨fun h => absurd h hhead, fun h => absurd h neg⟩, fun b hb => ?_, fun h => ?_,
      hfits⟩
    · rw [readNumeral, if_neg hc, hread, Option.map_some, hmag]
    · rw [hpart] at hb
      exact (hall b hb).2
    · rw [hpart] at h
      rw [← hdigits, hzero (Option.some.inj h)]
      rfl

/-! ### The function -/

/-- `itoa` from the sign on: the buffer begins with it, and the digits go over `old`. -/
theorem itoa_finish (hr : 2 ≤ radix) (hr16 : radix ≤ 16) {pre old post : Bytes} {x : UInt8}
    {k : Int} (n : Nat) (hn : n < 2 ^ 32)
    (hpre : (pre = [] ∧ k = 0) ∨ (pre = [ascii '-'] ∧ k = 1))
    (hold : old.length = (digitsOf radix n).length) :
    (do
      let (str, i) ← digitLoop radix (pre ++ old ++ x :: post).length (pre ++ old ++ x :: post)
        pre.length n
      let str ← store str i 0
      let first ← load str 0
      let k := if first = ascii '-' then 1 else 0
      swapLoop i k str.length str k) =
      some (pre ++ (digitsOf radix n).reverse.map digitChar ++ 0 :: post) := by
  have hlen : (digitsOf radix n).length ≤ 32 := by
    apply length_digitsOf_le hr (by decide)
    exact Nat.lt_of_lt_of_le hn (Nat.pow_le_pow_left hr 32)
  have hprelen : (pre.length : Int) = k := by
    rcases hpre with ⟨rfl, rfl⟩ | ⟨rfl, rfl⟩ <;> rfl
  have hk : k = 0 ∨ k = 1 := by
    rcases hpre with ⟨-, rfl⟩ | ⟨-, rfl⟩
    · exact .inl rfl
    · exact .inr rfl
  have hpos := List.length_pos_of_ne_nil (digitsOf_ne_nil hr n)
  have hdigits := digitLoop_spec hr hr16 (pre ++ old ++ x :: post).length n pre old (x :: post)
    hold (by simp only [List.length_append]; omega) (by omega)
  have hstore : store (pre ++ (digitsOf radix n).map digitChar ++ x :: post)
      ((pre.length + old.length : Nat) : Int) 0 =
        some (pre ++ (digitsOf radix n).map digitChar ++ 0 :: post) := by
    rw [show pre.length + old.length = (pre ++ (digitsOf radix n).map digitChar).length by
      simp [hold], store_append]
  have hfirst : ∃ first, load (pre ++ (digitsOf radix n).map digitChar ++ 0 :: post) 0 =
    some first ∧
      (if first = ascii '-' then (1 : Int) else 0) = k := by
    rcases hpre with ⟨rfl, rfl⟩ | ⟨rfl, rfl⟩
    · rw [digitsOf_step hr]
      refine ⟨digitChar (n % radix), rfl, if_neg ?_⟩
      exact (digitChar_ne (Nat.lt_of_lt_of_le (Nat.mod_lt _ (by omega)) hr16)).2
    · exact ⟨ascii '-', rfl, if_pos rfl⟩
  obtain ⟨first, hload, hkfirst⟩ := hfirst
  have hswap := swapLoop_spec (i := ((pre.length + old.length : Nat) : Int)) (k := k) (by omega)
    (by omega) hk ((digitsOf radix n).map digitChar)
    (pre ++ (digitsOf radix n).map digitChar ++ 0 :: post).length pre (0 :: post)
    (by rw [List.length_map]; omega) (by simp only [List.length_append, List.length_map]; omega)
  rw [hprelen] at hswap
  simp only [hdigits, hstore, hload, hkfirst, Option.bind_eq_bind, Option.bind_some, hswap,
    List.map_reverse]

theorem exists_split {s : Bytes} {n : Nat} (h : n < s.length) :
    ∃ old x, old.length = n ∧ s = old ++ x :: s.drop (n + 1) := by
  refine ⟨s.take n, s[n], by rw [List.length_take]; omega, ?_⟩
  rw [← List.drop_eq_getElem_cons, List.take_append_drop]

/-- On a buffer that is large enough `itoa` leaves the numeral, its NUL, and what was behind. -/
theorem itoa_eq (hr : 2 ≤ radix) (hr16 : radix ≤ 16) (num : Int) {str : Bytes}
    (room : (numeral radix num).length + 1 ≤ str.length) :
    itoa num str radix =
      some (numeral radix num ++ 0 :: str.drop ((numeral radix num).length + 1)) := by
  have hradix : toUnsigned radix = radix := by
    unfold toUnsigned
    omega
  have hcast : ((radix : Int) = 10 ∧ num < 0) ↔ (radix = 10 ∧ num < 0) := by omega
  have hmag := magnitude_lt radix num
  rw [numeral] at room ⊢
  unfold magnitude at hmag room ⊢
  rw [List.length_append, List.length_map, List.length_reverse] at room ⊢
  by_cases neg : radix = 10 ∧ num < 0
  · rw [if_pos neg] at hmag room ⊢
    rw [sign, if_pos neg, List.length_singleton] at room ⊢
    have hwrap : toUnsigned (toInt32 (-num)) = toUnsigned (-num) := by
      unfold toUnsigned toInt32
      omega
    cases str with
    | nil => exact absurd room (by simp)
    | cons y str =>
      have hroom : (digitsOf radix (toUnsigned (-num))).length < str.length := by
        rw [List.length_cons] at room
        omega
      obtain ⟨old, x, hold, hstr⟩ := exists_split hroom
      have hfinish := @itoa_finish radix hr hr16 [ascii '-'] old
        (str.drop ((digitsOf radix (toUnsigned (-num))).length + 1)) x 1 _ hmag
        (.inr ⟨rfl, rfl⟩) hold
      rw [List.append_assoc, ← hstr] at hfinish
      have hdrop : (y :: str).drop (1 + (digitsOf radix (toUnsigned (-num))).length + 1) =
          str.drop ((digitsOf radix (toUnsigned (-num))).length + 1) := by
        rw [Nat.add_comm 1]
        rfl
      rw [hdrop, ← hfinish]
      have hneg : decide ((radix : Int) = 10 ∧ num < 0) = true := decide_eq_true (hcast.2 neg)
      have hstore : store (y :: str) 0 (ascii '-') = some (ascii '-' :: str) :=
        store_append [] str y (ascii '-')
      simp only [itoa, hneg, ↓reduceIte, hwrap, hradix, hstore]
      rfl
  · rw [if_neg neg] at hmag room ⊢
    rw [sign, if_neg neg, List.length_nil, Nat.zero_add] at room ⊢
    have hroom : (digitsOf radix (toUnsigned num)).length < str.length := by omega
    obtain ⟨old, x, hold, hstr⟩ := exists_split hroom
    have hfinish := @itoa_finish radix hr hr16 [] old
      (str.drop ((digitsOf radix (toUnsigned num)).length + 1)) x 0 _ hmag
      (.inl ⟨rfl, rfl⟩) hold
    rw [List.append_assoc, List.nil_append, ← hstr] at hfinish
    rw [← hfinish]
    have hneg : decide ((radix : Int) = 10 ∧ num < 0) = false :=
      decide_eq_false fun h => neg (hcast.1 h)
    simp only [itoa, hneg, Bool.false_eq_true, ↓reduceIte, hradix]
    rfl

/-- `itoa` ends for every `int` and every radix up to 16, and leaves the numeral in every buffer
that has room for it. -/
theorem itoa_isNumeral (hr : 2 ≤ radix) (hr16 : radix ≤ 16) (int : InInt num) :
    ∃ s, IsNumeral radix num s ∧ ∀ str : Bytes, s.length + 1 ≤ str.length →
      ∃ str', itoa num str radix = some str' ∧ Contains str' s ∧ str'.length = str.length := by
  refine ⟨numeral radix num, numeral_isNumeral hr hr16 int, fun str room => ?_⟩
  refine ⟨_, itoa_eq hr hr16 num room, ⟨?_, _, rfl⟩, ?_⟩
  · obtain ⟨c, cs, hdigits, -, hall, -⟩ := digits_facts hr hr16 (magnitude radix num)
    rw [numeral, hdigits, List.mem_append, not_or]
    refine ⟨?_, fun h => (hall 0 h).1 rfl⟩
    unfold sign
    split <;> decide
  · rw [List.length_append, List.length_cons, List.length_drop]
    omega

theorem itoa_isNumeral_min : ∃ s, IsNumeral 10 (-2147483648) s ∧
    ∀ str : Bytes, s.length + 1 ≤ str.length →
      ∃ str', itoa (-2147483648) str (10 : Nat) = some str' ∧ Contains str' s ∧
        str'.length = str.length :=
  itoa_isNumeral (by decide) (by decide) (by decide)

end Itoa
end CFunction
