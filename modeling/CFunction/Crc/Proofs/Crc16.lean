import CFunction.Crc.Crc16
import CFunction.Crc.Proofs.Crc8

/-!
# The Modbus checksum

The entries of the two tables are the eight shifts of their index in a register with the generator
`x^16 + x^15 + x^2 + 1`. The bytes go in least significant bit first, so that the register stands
in `crc_hi` and `crc_lo` with its bits reversed.
-/

namespace CFunction.Crc16

open Crc

variable {r s : Register} {m e : List UInt8}

/-! ### The register -/

/-- `x^15 + x^2 + 1`, the generator without its leading term. -/
abbrev GENERATOR : BitVec 16 := 0x8005#16

/-- The register whose bits are those of the number, from the least significant one on. -/
def reversed (n : Nat) : BitVec 16 := (BitVec.ofNat 16 n).reverse

/-- The number that stands in `crc_lo` and `crc_hi`. -/
def Register.number (r : Register) : Nat := r.crcHi.toNat ^^^ r.crcLo.toNat <<< 8

def Register.bits (r : Register) : BitVec 16 := reversed r.number

theorem reversed_xor (m n : Nat) : reversed (m ^^^ n) = reversed m ^^^ reversed n := by
  apply BitVec.eq_of_getLsbD_eq
  intro i _
  rw [reversed, BitVec.ofNat_xor, BitVec.getLsbD_reverse, BitVec.getMsbD_xor, BitVec.getLsbD_xor,
    reversed, BitVec.getLsbD_reverse, reversed, BitVec.getLsbD_reverse]

theorem reversed_getMsbD {n i : Nat} (hi : i < 16) : (reversed n).getMsbD i = n.testBit i := by
  rw [reversed, BitVec.getMsbD_reverse, BitVec.getLsbD_ofNat, decide_eq_true hi, Bool.true_and]

/-- One shift of the number, to the right. -/
def shiftRight (n : Nat) : Nat := if n % 2 = 1 then n / 2 ^^^ 0xA001 else n / 2

def shiftRights : Nat → Nat → Nat
  | 0, n => n
  | k + 1, n => shiftRights k (shiftRight n)

theorem shiftRight_lt {n : Nat} (hn : n < 65536) : shiftRight n < 65536 := by
  unfold shiftRight
  split
  · exact Nat.xor_lt_two_pow (n := 16) (by omega) (by decide)
  · omega

theorem reversed_half {n : Nat} (hn : n < 65536) : reversed (n / 2) = reversed n <<< 1 := by
  apply BitVec.eq_of_getMsbD_eq
  intro i hi
  rw [BitVec.getMsbD_shiftLeft, reversed_getMsbD hi, Nat.testBit_div_two]
  by_cases hlast : i + 1 < 16
  · rw [reversed_getMsbD hlast]
  · have hpow : 2 ^ 16 ≤ 2 ^ (i + 1) := Nat.pow_le_pow_right (by decide) (by omega)
    rw [BitVec.getMsbD_of_ge _ _ (by omega)]
    exact Nat.testBit_lt_two_pow (Nat.lt_of_lt_of_le hn hpow)

/-- A shift to the right feeds a zero to the reversed register. -/
theorem feed_reversed {n : Nat} (hn : n < 65536) :
    feed GENERATOR (reversed n) false = reversed (shiftRight n) := by
  have hmsb : (reversed n).msb = decide (n % 2 = 1) := by
    rw [BitVec.msb_eq_getMsbD_zero, reversed_getMsbD (by decide), Nat.testBit_zero]
  have hgenerator : GENERATOR = reversed 0xA001 := by decide
  unfold feed shiftRight
  rw [hmsb, Bool.xor_false, ← reversed_half hn]
  by_cases hodd : n % 2 = 1
  · rw [if_pos (decide_eq_true hodd), if_pos hodd, reversed_xor, hgenerator]
  · rw [if_neg (by rw [decide_eq_false hodd]; exact Bool.false_ne_true), if_neg hodd,
      BitVec.xor_zero]

theorem remainder_reversed (k : Nat) {n : Nat} (hn : n < 65536) :
    remainder GENERATOR (reversed n) (List.replicate k false) = reversed (shiftRights k n) := by
  induction k generalizing n with
  | zero => rfl
  | succ k ih =>
    rw [List.replicate_succ, remainder_cons, feed_reversed hn, ih (shiftRight_lt hn)]
    rfl

theorem shiftRights_lt (k : Nat) {n : Nat} (hn : n < 65536) : shiftRights k n < 65536 := by
  induction k generalizing n with
  | zero => exact hn
  | succ k ih => exact ih (shiftRight_lt hn)

/-- The bits of a byte, least significant bit first. -/
def byteBits (b : UInt8) : List Bool := (List.range 8).map b.toBitVec.getLsbD

/-- The bits of a message in the order in which they are sent. -/
def messageBits (m : List UInt8) : List Bool := m.flatMap byteBits

theorem byteBits_length (b : UInt8) : (byteBits b).length = 8 := by
  rw [byteBits, List.length_map, List.length_range]

theorem byteBits_xor (b c : UInt8) :
    byteBits (b ^^^ c) = List.zipWith xor (byteBits b) (byteBits c) := by
  unfold byteBits
  rw [List.zipWith_map, List.zipWith_self]
  apply List.map_congr_left
  intro i _
  rw [UInt8.toBitVec_xor, BitVec.getLsbD_xor]

/-- Feeding a byte is adding it to the number and shifting eight times. -/
theorem remainder_byteBits {n : Nat} (hn : n < 65536) (b : UInt8) :
    remainder GENERATOR (reversed n) (byteBits b) = reversed (shiftRights 8 (n ^^^ b.toNat)) := by
  have hbits : (List.range 8).map (reversed b.toNat).getMsbD = byteBits b := by
    apply List.map_congr_left
    intro i hi
    have hlt := List.mem_range.1 hi
    exact reversed_getMsbD (by omega)
  have hout : reversed b.toNat <<< 8 = 0#16 := by
    apply BitVec.eq_of_getMsbD_eq
    intro i hi
    rw [BitVec.getMsbD_shiftLeft, BitVec.getMsbD_zero]
    by_cases hlast : i + 8 < 16
    · have hpow : 2 ^ 8 ≤ 2 ^ (i + 8) := Nat.pow_le_pow_right (by decide) (by omega)
      rw [reversed_getMsbD (by omega)]
      exact Nat.testBit_lt_two_pow (Nat.lt_of_lt_of_le b.toNat_lt hpow)
    · exact BitVec.getMsbD_of_ge _ _ (by omega)
  have hfed := remainder_partly (g := GENERATOR) (r := reversed n) (reversed b.toNat) 8
  have hlt : n ^^^ b.toNat < 65536 :=
    Nat.xor_lt_two_pow (n := 16) hn (Nat.lt_of_lt_of_le b.toNat_lt (by decide))
  rw [hbits, hout, BitVec.xor_zero, ← reversed_xor, remainder_reversed 8 hlt] at hfed
  exact hfed.symm

/-! ### The tables -/

/-- The entries of the tables; in `table_crc_lo` only the first one is zero. -/
theorem tables_eq :
    TABLE_CRC_HI = ((List.range 256).map fun i => UInt8.ofNat (shiftRights 8 i)) ∧
      TABLE_CRC_LO = ((List.range 256).map fun i => UInt8.ofNat (shiftRights 8 i >>> 8)) ∧
      0 ∉ TABLE_CRC_LO.tail := by
  set_option maxRecDepth 32768 in decide

theorem tables_length : TABLE_CRC_HI.length = 256 ∧ TABLE_CRC_LO.length = 256 := by
  rw [tables_eq.1, tables_eq.2.1, List.length_map, List.length_map, List.length_range]
  exact ⟨rfl, rfl⟩

theorem tableIndex_lt (r : Register) (b : UInt8) : tableIndex r b < 256 :=
  (r.crcHi ^^^ b).toNat_lt

theorem round_eq (r : Register) (b : UInt8) : round r b =
    some ⟨r.crcLo ^^^ UInt8.ofNat (shiftRights 8 (tableIndex r b)),
      UInt8.ofNat (shiftRights 8 (tableIndex r b) >>> 8)⟩ := by
  have hlt := tableIndex_lt r b
  rw [round, tables_eq.1, tables_eq.2.1, List.getElem?_map, List.getElem?_map,
    List.getElem?_range hlt]
  rfl

/-- Bits above the first `k` are only shifted down. -/
theorem shiftRights_upper (k n : Nat) : shiftRights k (n <<< k) = n := by
  induction k with
  | zero => rfl
  | succ k ih =>
    have hdouble : n <<< (k + 1) = 2 * n <<< k := by
      rw [Nat.shiftLeft_succ]
    have heven : shiftRight (2 * n <<< k) = n <<< k := by
      rw [shiftRight, if_neg (by omega)]
      omega
    rw [shiftRights, hdouble, heven]
    exact ih

/-- Only the index 0 has a zero entry in `table_crc_lo`. -/
theorem shiftRights_small (x : UInt8) (h : UInt8.ofNat (shiftRights 8 x.toNat >>> 8) = 0) :
    x = 0 := by
  have hentry : TABLE_CRC_LO[x.toNat]? = some 0 := by
    rw [tables_eq.2.1, List.getElem?_map, List.getElem?_range x.toNat_lt, Option.map_some, h]
  cases hx : x.toNat with
  | zero => exact UInt8.toNat_inj.1 hx
  | succ i =>
    rw [hx, ← List.getElem?_tail] at hentry
    exact absurd (List.mem_of_getElem? hentry) tables_eq.2.2

theorem number_lt (r : Register) : r.number < 65536 := by
  have hhi := r.crcHi.toNat_lt
  have hlo := r.crcLo.toNat_lt
  refine Nat.xor_lt_two_pow (n := 16) (by omega) ?_
  rw [Nat.shiftLeft_eq]
  omega

theorem split_bytes (n : Nat) : n % 256 ^^^ (n >>> 8) <<< 8 = n := by
  apply Nat.eq_of_testBit_eq
  intro i
  rw [Nat.testBit_xor, show 256 = 2 ^ 8 from rfl, Nat.testBit_mod_two_pow, Nat.testBit_shiftLeft,
    Nat.testBit_shiftRight]
  by_cases hi : i < 8
  · rw [decide_eq_true hi, decide_eq_false (by omega), Bool.true_and, Bool.false_and,
      Bool.xor_false]
  · rw [decide_eq_false hi, decide_eq_true (by omega), Bool.false_and, Bool.true_and,
      Bool.false_xor, Nat.add_sub_cancel' (by omega)]

/-- The two bytes of a number of 16 bits. -/
theorem split_shiftRights {i : Nat} (hi : i < 256) :
    (UInt8.ofNat (shiftRights 8 i)).toNat ^^^ (UInt8.ofNat (shiftRights 8 i >>> 8)).toNat <<< 8 =
      shiftRights 8 i := by
  have hlt : shiftRights 8 i >>> 8 < 256 := by
    have := shiftRights_lt 8 (Nat.lt_of_lt_of_le hi (by decide : 256 ≤ 65536))
    rw [Nat.shiftRight_eq_div_pow]
    omega
  rw [UInt8.toNat_ofNat', UInt8.toNat_ofNat', show 2 ^ 8 = 256 from rfl, Nat.mod_eq_of_lt hlt,
    split_bytes]

/-- The entries of an index, as a register, are the index with eight zeros fed to it. -/
theorem entries_bits {i : Nat} (hi : i < 256) :
    ∃ r : Register, TABLE_CRC_HI[i]? = some r.crcHi ∧ TABLE_CRC_LO[i]? = some r.crcLo ∧
      r.bits = remainder GENERATOR (reversed i) (List.replicate 8 false) := by
  refine ⟨⟨UInt8.ofNat (shiftRights 8 i), UInt8.ofNat (shiftRights 8 i >>> 8)⟩, ?_, ?_, ?_⟩
  · rw [tables_eq.1, List.getElem?_map, List.getElem?_range hi, Option.map_some]
  · rw [tables_eq.2.1, List.getElem?_map, List.getElem?_range hi, Option.map_some]
  · rw [Register.bits, Register.number, split_shiftRights hi, remainder_reversed 8 (by omega)]

theorem number_round {t : Register} {b : UInt8} (h : round r b = some t) :
    t.number = r.crcLo.toNat ^^^ shiftRights 8 (tableIndex r b) := by
  rw [round_eq, Option.some_inj] at h
  obtain rfl := h
  rw [Register.number, UInt8.toNat_xor, Nat.xor_assoc, split_shiftRights (tableIndex_lt r b)]

/-- One round feeds the byte to the register. -/
theorem bits_round {t : Register} {b : UInt8} (h : round r b = some t) :
    t.bits = remainder GENERATOR r.bits (byteBits b) := by
  have hindex : tableIndex r b < 65536 := Nat.lt_of_lt_of_le (tableIndex_lt r b) (by decide)
  have hupper : r.crcLo.toNat <<< 8 < 65536 := by
    have := r.crcLo.toNat_lt
    rw [Nat.shiftLeft_eq]
    omega
  have hsum : r.number ^^^ b.toNat = tableIndex r b ^^^ r.crcLo.toNat <<< 8 := by
    rw [Register.number, tableIndex, UInt8.toNat_xor, Nat.xor_assoc, Nat.xor_assoc,
      Nat.xor_comm b.toNat]
  have hlinear : remainder GENERATOR (reversed (tableIndex r b) ^^^ reversed (r.crcLo.toNat <<< 8))
      (List.zipWith xor (List.replicate 8 false) (List.replicate 8 false)) =
      remainder GENERATOR (reversed (tableIndex r b)) (List.replicate 8 false) ^^^
        remainder GENERATOR (reversed (r.crcLo.toNat <<< 8)) (List.replicate 8 false) :=
    remainder_xor rfl
  have hzeros : List.zipWith xor (List.replicate 8 false) (List.replicate 8 false) =
      List.replicate 8 false := rfl
  rw [hzeros, remainder_reversed 8 hindex, remainder_reversed 8 hupper, shiftRights_upper,
    ← reversed_xor, ← hsum, ← reversed_xor] at hlinear
  have hlt : r.number ^^^ b.toNat < 65536 :=
    Nat.xor_lt_two_pow (n := 16) (number_lt r) (Nat.lt_of_lt_of_le b.toNat_lt (by decide))
  rw [Register.bits, Register.bits, remainder_byteBits (number_lt r), ← remainder_reversed 8 hlt,
    hlinear, number_round h, Nat.xor_comm]

theorem crc16Loop_eq (m : List UInt8) (r : Register) : ∃ t, crc16Loop m.length m r = some t ∧
    t.bits = remainder GENERATOR r.bits (messageBits m) := by
  induction m generalizing r with
  | nil => exact ⟨r, rfl, rfl⟩
  | cons b m ih =>
    obtain ⟨u, hu, hrest⟩ := ih ⟨r.crcLo ^^^ UInt8.ofNat (shiftRights 8 (tableIndex r b)),
      UInt8.ofNat (shiftRights 8 (tableIndex r b) >>> 8)⟩
    refine ⟨u, ?_, ?_⟩
    · rw [List.length_cons, crc16Loop, round_eq]
      exact hu
    · rw [hrest, bits_round (round_eq r b), ← remainder_append]
      rfl

/-! ### Errors -/

theorem messageBits_length (m : List UInt8) : (messageBits m).length = 8 * m.length := by
  induction m with
  | nil => rfl
  | cons b m ih =>
    have hbits : messageBits (b :: m) = byteBits b ++ messageBits m := rfl
    rw [hbits, List.length_append, byteBits_length, ih, List.length_cons]
    omega

theorem messageBits_corrupt (same : e.length = m.length) :
    messageBits (Crc8.corrupt m e) = List.zipWith xor (messageBits m) (messageBits e) := by
  induction m generalizing e with
  | nil => rfl
  | cons b m ih => cases e with
    | nil => cases same
    | cons c e =>
      have hsplit : List.zipWith xor (messageBits (b :: m)) (messageBits (c :: e)) =
          List.zipWith xor (byteBits b) (byteBits c) ++
            List.zipWith xor (messageBits m) (messageBits e) :=
        List.zipWith_append (by rw [byteBits_length, byteBits_length])
      rw [hsplit, ← byteBits_xor, ← ih (Nat.succ.inj same)]
      rfl

/-- All set bits lie within 16 bits that are sent one after the other. -/
def Burst (e : List UInt8) : Prop :=
  ∃ k, ∀ i, (messageBits e)[i]? = some true → k ≤ i ∧ i < k + 16

/-- The number of set bits is odd. -/
def OddWeight (e : List UInt8) : Prop := Odd ((messageBits e).count true)

theorem true_mem_messageBits (h : Crc8.NonZero e) : true ∈ messageBits e := by
  obtain ⟨b, hb, hne⟩ := h
  refine List.mem_flatMap.2 ⟨b, hb, ?_⟩
  by_contra hnone
  apply hne
  rw [← UInt8.toBitVec_inj]
  apply BitVec.eq_of_getLsbD_eq
  intro i hi
  have hbit : b.toBitVec.getLsbD i ≠ true := fun h =>
    hnone (List.mem_map.2 ⟨i, List.mem_range.2 hi, h⟩)
  simpa using hbit

/-- Called with the length of the message, which a `uint16_t` can hold. -/
theorem crc16_eq (short : m.length ≤ 65535) : crc16 m (UInt16.ofNat m.length) =
    (crc16Loop m.length m ⟨0xFF, 0xFF⟩).map result := by
  have hlen : (UInt16.ofNat m.length).toNat = m.length := by
    rw [UInt16.toNat_ofNat']
    omega
  rw [crc16, hlen]
  cases crc16Loop m.length m ⟨0xFF, 0xFF⟩ <;> rfl

theorem result_toNat (r : Register) : (result r).toNat = r.crcHi.toNat * 256 + r.crcLo.toNat := by
  have hhi := r.crcHi.toNat_lt
  have hlo := r.crcLo.toNat_lt
  have hor : r.crcHi.toNat <<< 8 ||| r.crcLo.toNat = r.crcHi.toNat * 256 + r.crcLo.toNat := by
    rw [← Nat.shiftLeft_add_eq_or_of_lt hlo, Nat.shiftLeft_eq]
  rw [result, UInt16.toNat_ofNat', hor]
  omega

theorem result_inj (h : result r = result s) : r = s := by
  have hnat := congrArg UInt16.toNat h
  rw [result_toNat, result_toNat] at hnat
  have hr := r.crcLo.toNat_lt
  have hs := s.crcLo.toNat_lt
  obtain ⟨rhi, rlo⟩ := r
  obtain ⟨shi, slo⟩ := s
  rw [Register.mk.injEq, ← UInt8.toNat_inj, ← UInt8.toNat_inj]
  simp only at hnat hr hs
  omega

/-! ### The receiver -/

theorem round_crcLo_eq_zero {b : UInt8} {t : Register} (h : round r b = some t)
    (hzero : t.crcLo = 0) : b = r.crcHi ∧ t = ⟨r.crcLo, 0⟩ := by
  rw [round_eq, Option.some_inj] at h
  obtain rfl := h
  have hindex : r.crcHi ^^^ b = 0 := shiftRights_small _ hzero
  refine ⟨(UInt8.xor_eq_zero_iff.1 hindex).symm, ?_⟩
  rw [tableIndex, hindex, Register.mk.injEq]
  exact ⟨UInt8.xor_zero, rfl⟩

theorem crc16Loop_append {m n : List UInt8} {t : Register}
    (h : crc16Loop m.length m r = some t) :
    crc16Loop (m ++ n).length (m ++ n) r = crc16Loop n.length n t := by
  induction m generalizing r with
  | nil =>
    obtain rfl : r = t := Option.some.inj h
    rfl
  | cons b m ih =>
    rw [List.length_cons, crc16Loop, round_eq] at h
    rw [List.cons_append, List.length_cons, crc16Loop, round_eq]
    exact ih h

/-- The checksum behind its message gives zero, and nothing else does. -/
theorem crc16Loop_pair (t : Register) (a b : UInt8) :
    crc16Loop 2 [a, b] t = some ⟨0, 0⟩ ↔ t = ⟨a, b⟩ := by
  constructor
  · intro h
    rw [crc16Loop] at h
    obtain ⟨u, hu, h⟩ := Option.bind_eq_some_iff.1 h
    rw [crc16Loop] at h
    obtain ⟨v, hv, h⟩ := Option.bind_eq_some_iff.1 h
    obtain rfl : v = ⟨0, 0⟩ := Option.some.inj h
    obtain ⟨hb, hsecond⟩ := round_crcLo_eq_zero hv rfl
    obtain ⟨ha, hfirst⟩ := round_crcLo_eq_zero hu (Register.mk.inj hsecond).1.symm
    rw [hfirst] at hb
    rw [ha, hb]
  · rintro rfl
    have hround : ∀ c d : UInt8, round ⟨c, d⟩ c = some ⟨d, 0⟩ := by
      intro c d
      rw [round_eq, tableIndex, UInt8.xor_self, Option.some_inj, Register.mk.injEq]
      exact ⟨UInt8.xor_zero, rfl⟩
    rw [crc16Loop, hround]
    show crc16Loop 1 [b] ⟨b, 0⟩ = _
    rw [crc16Loop, hround]
    rfl

/-- The two tables have 256 entries, which are the eight shifts of their index. For messages that a
`uint16_t` counts: the checksum is read from the tables without leaving them and is the remainder of
the message; an error that is a burst of at most 16 bits, or has an odd number of bits, changes it;
and a message with two bytes behind it has the checksum zero exactly if they are its checksum, the
high byte first. -/
theorem crc16_detects (short : m.length ≤ 65533) :
    (TABLE_CRC_HI.length = 256 ∧ TABLE_CRC_LO.length = 256 ∧ ∀ i < 256, ∃ r : Register,
      TABLE_CRC_HI[i]? = some r.crcHi ∧ TABLE_CRC_LO[i]? = some r.crcLo ∧
        r.bits = remainder GENERATOR (reversed i) (List.replicate 8 false)) ∧
    (∃ t : Register, crc16 m (UInt16.ofNat m.length) = some (result t) ∧
      t.bits = remainder GENERATOR (Register.bits ⟨0xFF, 0xFF⟩) (messageBits m)) ∧
    (∀ e : List UInt8, e.length = m.length → Crc8.NonZero e → Burst e ∨ OddWeight e →
      ∃ c d, crc16 m (UInt16.ofNat m.length) = some c ∧
        crc16 (Crc8.corrupt m e) (UInt16.ofNat m.length) = some d ∧ d ≠ c) ∧
    ∀ a b, crc16 (m ++ [a, b]) (UInt16.ofNat (m ++ [a, b]).length) = some 0 ↔
      crc16 m (UInt16.ofNat m.length) = some (result ⟨a, b⟩) := by
  obtain ⟨t, ht, hbits⟩ := crc16Loop_eq m ⟨0xFF, 0xFF⟩
  have hcrc : crc16 m (UInt16.ofNat m.length) = some (result t) := by
    rw [crc16_eq (Nat.le_trans short (by decide)), ht]
    rfl
  refine ⟨⟨tables_length.1, tables_length.2, fun i hi => entries_bits hi⟩, ?_, ?_, ?_⟩
  · exact ⟨t, hcrc, hbits⟩
  · intro e same nonZero kind
    have hcorrupt : (Crc8.corrupt m e).length = m.length := by
      rw [Crc8.corrupt, List.length_zipWith, same, Nat.min_self]
    obtain ⟨u, hu, herror⟩ := crc16Loop_eq (Crc8.corrupt m e) ⟨0xFF, 0xFF⟩
    refine ⟨result t, result u, hcrc, ?_, fun heq => ?_⟩
    · rw [← hcorrupt, crc16_eq (by omega), hu]
      rfl
    · have hlen : (messageBits m).length = (messageBits e).length := by
        rw [messageBits_length, messageBits_length, same]
      rw [result_inj heq, hbits, messageBits_corrupt same] at herror
      have hzero := (remainder_error_iff hlen).1 herror.symm
      rcases kind with ⟨k, window⟩ | odd
      · exact remainder_window_ne_zero (by decide) k window (true_mem_messageBits nonZero) hzero
      · exact remainder_odd_ne_zero (by decide) odd hzero
  · intro a b
    have hlong : (m ++ [a, b]).length ≤ 65535 := by
      rw [List.length_append, List.length_cons, List.length_singleton]
      omega
    rw [hcrc, crc16_eq hlong, crc16Loop_append ht, Option.some_inj, Option.map_eq_some_iff]
    constructor
    · rintro ⟨u, hu, hzero⟩
      obtain rfl : u = ⟨0, 0⟩ := result_inj hzero
      rw [(crc16Loop_pair t a b).1 hu]
    · intro heq
      exact ⟨⟨0, 0⟩, (crc16Loop_pair t a b).2 (result_inj heq), rfl⟩

/-- The message that the program itself prints the checksum of, with its checksum. -/
theorem crc16_detects_arr :
    crc16 [0x52, 0x4A, 0x01, 0x01, 0x00, 0x00, 0x00, 0x00, 0x13, 0x3B] 10 = some 0 :=
  ((crc16_detects (m := [0x52, 0x4A, 0x01, 0x01, 0x00, 0x00, 0x00, 0x00]) (by decide)).2.2.2
    0x13 0x3B).2 rfl

end CFunction.Crc16
