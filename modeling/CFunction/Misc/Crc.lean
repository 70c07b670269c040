import Mathlib.Data.List.GetD
import Mathlib.Algebra.Ring.Parity

/-!
# Cyclic redundancy registers

A register of `w` bits with the generator `x^w + g`: a message is fed most significant bit
first, and the register holds the remainder of what has been read so far, moved up by `w`
places. Feeding is linear over exclusive or, so an error pattern goes unnoticed exactly when
its own remainder is zero. From this come two classes of errors that are always noticed.
-/

namespace CFunction.Crc

variable {w : Nat} {g r s : BitVec w} {c d : Bool} {cs ds : List Bool}

/-- One bit of the message. -/
def feed (g r : BitVec w) (c : Bool) : BitVec w :=
  (r <<< 1) ^^^ if r.msb ^^ c then g else 0#w

/-- The register after the bits `cs`. -/
def remainder (g r : BitVec w) (cs : List Bool) : BitVec w := cs.foldl (feed g) r

@[simp] theorem remainder_nil : remainder g r [] = r := rfl

@[simp] theorem remainder_cons : remainder g r (c :: cs) = remainder g (feed g r c) cs := rfl

theorem remainder_append : remainder g r (cs ++ ds) = remainder g (remainder g r cs) ds :=
  List.foldl_append

/-! ## Linearity -/

theorem feed_xor : feed g (r ^^^ s) (c ^^ d) = feed g r c ^^^ feed g s d := by
  have hsum : (r.msb ^^ s.msb ^^ (c ^^ d)) = ((r.msb ^^ c) ^^ (s.msb ^^ d)) := by
    cases r.msb <;> cases s.msb <;> cases c <;> cases d <;> rfl
  have hgen : (if (r.msb ^^ c) ^^ (s.msb ^^ d) then g else 0#w) =
      (if r.msb ^^ c then g else 0#w) ^^^ (if s.msb ^^ d then g else 0#w) := by
    cases (r.msb ^^ c) <;> cases (s.msb ^^ d) <;> simp
  unfold feed
  rw [BitVec.msb_xor, hsum, hgen, BitVec.shiftLeft_xor_distrib]
  ac_rfl

theorem remainder_xor (same : cs.length = ds.length) :
    remainder g (r ^^^ s) (List.zipWith xor cs ds) = remainder g r cs ^^^ remainder g s ds := by
  induction cs generalizing ds r s with
  | nil => cases ds with
    | nil => rfl
    | cons d ds => cases same
  | cons c cs ih => cases ds with
    | nil => cases same
    | cons d ds =>
      rw [List.zipWith_cons_cons, remainder_cons, feed_xor, ih (Nat.succ.inj same)]
      rfl

/-- An error pattern goes unnoticed exactly when its own remainder is zero. -/
theorem remainder_error_iff (same : cs.length = ds.length) :
    remainder g r (List.zipWith xor cs ds) = remainder g r cs ↔ remainder g 0#w ds = 0#w := by
  have hsum := remainder_xor (g := g) (r := r) (s := 0#w) same
  have hinj := BitVec.xor_right_inj (x := remainder g 0#w ds) (y := 0#w) (remainder g r cs)
  rw [BitVec.xor_zero] at hsum hinj
  rw [hsum, hinj]

/-! ## Bursts -/

/-- A register that ends at zero after at most `w` bits held exactly these bits, at its upper
end: with an odd generator no bit of the message cancels anything but the bit it meets. -/
theorem getMsbD_of_remainder_eq_zero (odd : g.getLsbD 0 = true) (short : cs.length ≤ w)
    (zero : remainder g r cs = 0#w) {i : Nat} (hi : i < w) :
    r.getMsbD i = cs.getD i false := by
  induction cs generalizing r i with
  | nil =>
    rw [remainder_nil] at zero
    simp [zero]
  | cons c cs ih =>
    have hlen : cs.length + 1 ≤ w := short
    rw [remainder_cons] at zero
    have held : ∀ j, j < w → (feed g r c).getMsbD j = cs.getD j false :=
      fun j hj => ih (by omega) zero hj
    -- the lowest bit of the register after `c` is zero, so `c` did not bring in the generator
    have hlow : (feed g r c).getLsbD 0 = false := by
      rw [BitVec.getLsbD_eq_getMsbD, held (w - 1 - 0) (by omega),
        List.getD_eq_default _ _ (by omega), Bool.and_false]
    have hmeet : (r.msb ^^ c) = false := by
      by_contra hne
      rw [Bool.not_eq_false] at hne
      rw [feed, if_pos hne] at hlow
      simp [odd] at hlow
    have hfeed : feed g r c = r <<< 1 := by simp [feed, hmeet]
    cases i with
    | zero =>
      rw [← BitVec.msb_eq_getMsbD_zero]
      simpa using hmeet
    | succ i =>
      have h := held i (by omega)
      rw [hfeed, BitVec.getMsbD_shiftLeft] at h
      simpa [Nat.add_comm, show i < w by omega] using h

theorem remainder_eq_zero_of_zeros (odd : g.getLsbD 0 = true) (n : Nat)
    (zero : remainder g r (List.replicate n false) = 0#w) : r = 0#w := by
  induction n generalizing r with
  | zero => exact zero
  | succ n ih =>
    have hw : 0 < w := by
      by_contra h
      obtain rfl : w = 0 := by omega
      simp at odd
    rw [List.replicate_succ, remainder_cons] at zero
    have hfeed : remainder g r [false] = 0#w := ih zero
    have hone : [false].length ≤ w := hw
    apply BitVec.eq_of_getMsbD_eq
    intro i hi
    rw [getMsbD_of_remainder_eq_zero odd hone hfeed hi, BitVec.getMsbD_zero]
    cases i <;> rfl

theorem remainder_zeros (n : Nat) : remainder g 0#w (List.replicate n false) = 0#w := by
  induction n with
  | zero => rfl
  | succ n ih =>
    have hfeed : feed g 0#w false = 0#w := by simp [feed]
    rw [List.replicate_succ, remainder_cons, hfeed, ih]

/-- A burst of at most `w` bits somewhere in the message leaves a remainder. -/
theorem remainder_burst_ne_zero (odd : g.getLsbD 0 = true) (before after : Nat)
    (short : cs.length ≤ w) (some_bit : true ∈ cs) :
    remainder g 0#w (List.replicate before false ++ cs ++ List.replicate after false) ≠ 0#w := by
  intro zero
  rw [remainder_append, remainder_append, remainder_zeros] at zero
  have hzero := remainder_eq_zero_of_zeros odd after zero
  obtain ⟨i, hi, hbit⟩ := List.mem_iff_getElem.1 some_bit
  have h := getMsbD_of_remainder_eq_zero odd short hzero (show i < w by omega)
  rw [BitVec.getMsbD_zero, List.getD_eq_getElem _ _ hi, hbit] at h
  cases h

/-- The same for an error pattern given by the places of its bits. -/
theorem remainder_window_ne_zero (odd : g.getLsbD 0 = true) (k : Nat)
    (window : ∀ i, cs[i]? = some true → k ≤ i ∧ i < k + w) (some_bit : true ∈ cs) :
    remainder g 0#w cs ≠ 0#w := by
  have hbefore : cs.take k = List.replicate (cs.take k).length false := by
    apply List.eq_replicate_of_mem
    intro c hc
    obtain ⟨i, hi, rfl⟩ := List.mem_iff_getElem.1 hc
    rw [List.length_take] at hi
    rw [List.getElem_take]
    by_contra hbit
    have := (window i (by rw [List.getElem?_eq_getElem (by omega)]; simpa using hbit)).1
    omega
  have hafter : (cs.drop k).drop w = List.replicate ((cs.drop k).drop w).length false := by
    apply List.eq_replicate_of_mem
    intro c hc
    rw [List.drop_drop] at hc
    obtain ⟨i, hi, rfl⟩ := List.mem_iff_getElem.1 hc
    rw [List.length_drop] at hi
    rw [List.getElem_drop]
    by_contra hbit
    have := (window (k + w + i)
      (by rw [List.getElem?_eq_getElem (by omega)]; simpa using hbit)).2
    omega
  have hsplit : cs = List.replicate (cs.take k).length false ++ (cs.drop k).take w ++
      List.replicate ((cs.drop k).drop w).length false := by
    rw [← hbefore, ← hafter, List.append_assoc, List.take_append_drop, List.take_append_drop]
  have hbit : true ∈ (cs.drop k).take w := by
    rw [hsplit] at some_bit
    simpa [List.mem_replicate] using some_bit
  rw [hsplit]
  exact remainder_burst_ne_zero odd _ _ (List.length_take_le _ _) hbit

/-! ## Parity -/

/-- The sum of the bits. -/
def xorAll (cs : List Bool) : Bool := cs.foldr xor false

/-- The bits of a register, most significant bit first. -/
def bitsOf (r : BitVec w) : List Bool := (List.range w).map r.getMsbD

theorem bitsOf_xor : bitsOf (r ^^^ s) = List.zipWith xor (bitsOf r) (bitsOf s) := by
  unfold bitsOf
  rw [List.zipWith_map, List.zipWith_self]
  apply List.map_congr_left
  intro i _
  exact BitVec.getMsbD_xor

theorem xorAll_append : xorAll (cs ++ ds) = (xorAll cs ^^ xorAll ds) := by
  induction cs with
  | nil => simp [xorAll]
  | cons c cs ih =>
    unfold xorAll at ih ⊢
    simp only [List.cons_append, List.foldr_cons, ih, Bool.xor_assoc]

theorem xorAll_eq_true_iff : xorAll cs = true ↔ Odd (cs.count true) := by
  induction cs with
  | nil => simp [xorAll]
  | cons c cs ih =>
    have hcons : xorAll (c :: cs) = (c ^^ xorAll cs) := rfl
    cases c
    · simpa [hcons] using ih
    · rw [hcons, List.count_cons_self, Nat.odd_add_one, ← ih]
      simp

theorem xorAll_map_xor {α : Type*} (f f' : α → Bool) (l : List α) :
    xorAll (l.map fun a => f a ^^ f' a) = (xorAll (l.map f) ^^ xorAll (l.map f')) := by
  induction l with
  | nil => rfl
  | cons a l ih =>
    unfold xorAll at ih ⊢
    simp only [List.map_cons, List.foldr_cons, ih]
    cases f a <;> cases f' a <;> simp

theorem parity_xor : xorAll (bitsOf (r ^^^ s)) = (xorAll (bitsOf r) ^^ xorAll (bitsOf s)) := by
  unfold bitsOf
  rw [← xorAll_map_xor]
  congr 2
  funext i
  exact BitVec.getMsbD_xor

/-- A shift loses the most significant bit. -/
theorem parity_shift : xorAll (bitsOf (r <<< 1)) = (xorAll (bitsOf r) ^^ r.msb) := by
  cases w with
  | zero => simp [bitsOf, xorAll, BitVec.msb_eq_getMsbD_zero]
  | succ n =>
    have hshift : bitsOf (r <<< 1) =
        (List.range n).map (fun i => r.getMsbD (i + 1)) ++ [false] := by
      unfold bitsOf
      rw [List.range_succ, List.map_append, List.map_singleton]
      rw [BitVec.getMsbD_shiftLeft, BitVec.getMsbD_of_ge r (n + 1) (le_refl _)]
      congr 1
      apply List.map_congr_left
      intro i _
      exact BitVec.getMsbD_shiftLeft r 1
    have hbits : bitsOf r = r.msb :: (List.range n).map (fun i => r.getMsbD (i + 1)) := by
      unfold bitsOf
      rw [List.range_succ_eq_map, List.map_cons, List.map_map, BitVec.msb_eq_getMsbD_zero]
      rfl
    have hcons : ∀ c cs, xorAll (c :: cs) = (c ^^ xorAll cs) := fun _ _ => rfl
    rw [hshift, hbits, xorAll_append, hcons]
    simp [xorAll, Bool.xor_comm]

/-- With an even number of terms in the generator, the register has the parity of the bits
read. -/
theorem parity_remainder (even : xorAll (bitsOf g) = true) :
    xorAll (bitsOf (remainder g r cs)) = (xorAll (bitsOf r) ^^ xorAll cs) := by
  induction cs generalizing r with
  | nil => simp [xorAll]
  | cons c cs ih =>
    have hfeed : xorAll (bitsOf (feed g r c)) = (xorAll (bitsOf r) ^^ c) := by
      unfold feed
      cases hc : (r.msb ^^ c)
      · have hmsb : r.msb = c := by simpa using hc
        simp [parity_shift, hmsb]
      · have hmsb : r.msb = !c := by
          revert hc; cases r.msb <;> cases c <;> decide
        simp [parity_xor, parity_shift, even, hmsb]
    have hcons : xorAll (c :: cs) = (c ^^ xorAll cs) := rfl
    rw [remainder_cons, ih, hfeed, hcons, Bool.xor_assoc]

/-- An odd number of wrong bits leaves a remainder. -/
theorem remainder_odd_ne_zero (even : xorAll (bitsOf g) = true) (odd : Odd (cs.count true)) :
    remainder g 0#w cs ≠ 0#w := by
  intro zero
  have h : xorAll (bitsOf (remainder g 0#w cs)) = (xorAll (bitsOf 0#w) ^^ xorAll cs) :=
    parity_remainder even
  have hzero : xorAll (bitsOf 0#w) = false := by
    unfold bitsOf
    rw [show (0#w).getMsbD = fun _ => false by funext i; simp]
    induction List.range w with
    | nil => rfl
    | cons _ l ih => simpa [xorAll] using ih
  rw [zero, hzero, xorAll_eq_true_iff.2 odd] at h
  cases h

/-! ## A register's width at a time -/

/-- After `k` bits of `b` the rest of it still has to be added. -/
theorem remainder_partly (b : BitVec w) (k : Nat) :
    remainder g (r ^^^ b) (List.replicate k false) =
      remainder g r ((List.range k).map b.getMsbD) ^^^ (b <<< k) := by
  induction k with
  | zero => simp
  | succ k ih =>
    have hmsb : (b <<< k).msb = b.getMsbD k := by
      rw [BitVec.msb_eq_getMsbD_zero, BitVec.getMsbD_shiftLeft, Nat.zero_add]
    have hrest : feed g (b <<< k) (b.getMsbD k) = b <<< (k + 1) := by
      simp [feed, hmsb, BitVec.shiftLeft_add]
    have hself : (b.getMsbD k ^^ b.getMsbD k) = false := Bool.xor_self _
    rw [List.replicate_succ', remainder_append, ih, List.range_succ, List.map_append,
      remainder_append, List.map_singleton, remainder_cons, remainder_nil, remainder_cons,
      remainder_nil, ← hrest, ← feed_xor, hself]

/-- Adding `b` to the register and shifting it out is the same as feeding the bits of `b`. -/
theorem remainder_bitsOf (b : BitVec w) :
    remainder g r (bitsOf b) = remainder g (r ^^^ b) (List.replicate w false) := by
  rw [remainder_partly, BitVec.shiftLeft_eq_zero (le_refl w), BitVec.xor_zero]
  rfl

end CFunction.Crc
