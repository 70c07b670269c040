import CFunction.Crc.Crc8
import CFunction.Misc.Crc

/-!
# The two CRC-8 functions

Both loops fold the eight shifts of `crc ^ *ptr` over the message: `crc8` by definition,
`crc8_table` because each entry of the table is the eight shifts of its index. The eight shifts
are those of the register with the generator `x^8 + x^2 + x + 1`, so the checksum is the
remainder of the bits of the message.
-/

namespace CFunction.Crc8
open Crc

/-- The checksum register after the bytes `m`. -/
def checksum (crc : UInt8) (m : List UInt8) : UInt8 :=
  m.foldl (fun crc b => shiftBits 8 (crc ^^^ b)) crc

theorem crc8Loop_eq {len : Nat} {ptr : List UInt8} (inside : len ≤ ptr.length) (crc : UInt8) :
    crc8Loop len ptr crc = some (checksum crc (ptr.take len)) := by
  induction len generalizing ptr crc with
  | zero => rfl
  | succ len ih => cases ptr with
    | nil => simp at inside
    | cons b ptr => exact ih (Nat.le_of_succ_le_succ inside) _

/-- Each of the 256 entries is the eight shifts of its index. -/
theorem CRC_ARRAY_eq : CRC_ARRAY = (List.range 256).map fun i => shiftBits 8 (UInt8.ofNat i) := by
  set_option maxRecDepth 32768 in decide

theorem CRC_ARRAY_length : CRC_ARRAY.length = 256 := by
  rw [CRC_ARRAY_eq, List.length_map, List.length_range]

theorem tableIndex_lt (crc b : UInt8) : tableIndex crc b < 256 := (crc ^^^ b).toNat_lt

theorem CRC_ARRAY_tableIndex (crc b : UInt8) :
    CRC_ARRAY[tableIndex crc b]? = some (shiftBits 8 (crc ^^^ b)) := by
  rw [CRC_ARRAY_eq, List.getElem?_map, List.getElem?_range (tableIndex_lt crc b)]
  simp [tableIndex]

theorem tableLoop_eq (len : Nat) (ptr : List UInt8) (crc : UInt8) :
    tableLoop len ptr crc = crc8Loop len ptr crc := by
  induction len generalizing ptr crc with
  | zero => rfl
  | succ len ih => cases ptr with
    | nil => rfl
    | cons b ptr =>
      rw [tableLoop, CRC_ARRAY_tableIndex, crc8Loop]
      exact ih ptr _

theorem indicesLoop_lt {len : Nat} {ptr : List UInt8} {crc : UInt8} :
    ∀ i ∈ indicesLoop len ptr crc, i < 256 := by
  induction len generalizing ptr crc with
  | zero => intro i hi; cases hi
  | succ len ih => cases ptr with
    | nil => intro i hi; cases hi
    | cons b ptr =>
      intro i hi
      rw [indicesLoop, CRC_ARRAY_tableIndex] at hi
      rcases List.mem_cons.1 hi with rfl | hi
      · exact tableIndex_lt crc b
      · exact ih i hi

/-- Called with the length of the message, which an `unsigned char` can hold. -/
theorem crc8_eq {m : List UInt8} (short : m.length ≤ 255) :
    crc8 m (UInt8.ofNat m.length) = some (checksum 0 m) := by
  have hlen : (UInt8.ofNat m.length).toNat = m.length := by
    rw [UInt8.toNat_ofNat']
    omega
  rw [crc8, hlen, crc8Loop_eq (le_refl _), List.take_length]

/-- The table-driven checksum is the bitwise one, and the table is never left. -/
theorem crc8Table_eq_crc8 (ptr : List UInt8) (len : UInt8) (inside : len.toNat ≤ ptr.length) :
    (∃ crc, crc8 ptr len = some crc ∧ crc8Table ptr len = some crc) ∧
      CRC_ARRAY.length = 256 ∧ ∀ i ∈ tableIndices ptr len, i ≤ 255 := by
  refine ⟨⟨_, crc8Loop_eq inside 0, ?_⟩, CRC_ARRAY_length, fun i hi => ?_⟩
  · exact (tableLoop_eq len.toNat ptr 0).trans (crc8Loop_eq inside 0)
  · exact Nat.le_of_lt_succ (indicesLoop_lt i hi)

/-- The message that the program itself prints the checksums of. -/
theorem crc8Table_eq_crc8_arr6 :
    (∃ crc, crc8 [0x10, 0x11, 0x12, 0x13, 0x14, 0x15] 6 = some crc ∧
      crc8Table [0x10, 0x11, 0x12, 0x13, 0x14, 0x15] 6 = some crc) ∧
      CRC_ARRAY.length = 256 ∧
      ∀ i ∈ tableIndices [0x10, 0x11, 0x12, 0x13, 0x14, 0x15] 6, i ≤ 255 :=
  crc8Table_eq_crc8 [0x10, 0x11, 0x12, 0x13, 0x14, 0x15] 6 (by decide)

/-! ## Errors -/

/-- `x^2 + x + 1`, the generator without its leading term. -/
abbrev GENERATOR : BitVec 8 := 0x07#8

/-- The bits of a message, bytes in order, most significant bit first. -/
def messageBits (m : List UInt8) : List Bool := m.flatMap fun b => bitsOf b.toBitVec

theorem and_msb_ne_zero_iff (x : BitVec 8) : x &&& 0x80#8 ≠ 0#8 ↔ x.msb = true := by
  have hand : x &&& 0x80#8 = if x.getLsbD 7 then 0x80#8 else 0#8 := BitVec.and_twoPow x 7
  rw [hand, BitVec.msb_eq_getLsbD_last]
  cases x.getLsbD 7 with
  | true => exact ⟨fun _ => rfl, fun _ => by decide⟩
  | false => exact ⟨fun h => absurd rfl h, fun h => absurd h Bool.false_ne_true⟩

theorem shiftBit_toBitVec (crc : UInt8) :
    (shiftBit crc).toBitVec = feed GENERATOR crc.toBitVec false := by
  have hmsb : crc &&& 0x80 ≠ 0 ↔ crc.toBitVec.msb = true := by
    rw [← and_msb_ne_zero_iff, ne_eq, ← UInt8.toBitVec_inj]
    rfl
  unfold shiftBit feed
  by_cases h : crc.toBitVec.msb = true
  · rw [if_pos (hmsb.2 h)]
    simp [h]
  · rw [if_neg (fun hne => h (hmsb.1 hne))]
    simp [h]

theorem shiftBits_toBitVec (rounds : Nat) (crc : UInt8) :
    (shiftBits rounds crc).toBitVec =
      remainder GENERATOR crc.toBitVec (List.replicate rounds false) := by
  induction rounds generalizing crc with
  | zero => rfl
  | succ rounds ih => rw [shiftBits, ih, shiftBit_toBitVec, List.replicate_succ, remainder_cons]

/-- The checksum is the remainder of the bits of the message. -/
theorem checksum_toBitVec (crc : UInt8) (m : List UInt8) :
    (checksum crc m).toBitVec = remainder GENERATOR crc.toBitVec (messageBits m) := by
  induction m generalizing crc with
  | nil => rfl
  | cons b m ih =>
    have hbits : messageBits (b :: m) = bitsOf b.toBitVec ++ messageBits m := rfl
    rw [hbits, remainder_append, remainder_bitsOf, ← UInt8.toBitVec_xor, ← shiftBits_toBitVec]
    exact ih _

theorem bitsOf_length {w : Nat} (r : BitVec w) : (bitsOf r).length = w := by
  rw [bitsOf, List.length_map, List.length_range]

theorem messageBits_length (m : List UInt8) : (messageBits m).length = 8 * m.length := by
  induction m with
  | nil => rfl
  | cons b m ih =>
    have hbits : messageBits (b :: m) = bitsOf b.toBitVec ++ messageBits m := rfl
    rw [hbits, List.length_append, bitsOf_length, ih, List.length_cons]
    omega

/-- The message as it arrives with the error pattern `e`. -/
def corrupt (m e : List UInt8) : List UInt8 := List.zipWith (· ^^^ ·) m e

theorem messageBits_corrupt {m e : List UInt8} (same : e.length = m.length) :
    messageBits (corrupt m e) = List.zipWith xor (messageBits m) (messageBits e) := by
  induction m generalizing e with
  | nil => rfl
  | cons b m ih => cases e with
    | nil => cases same
    | cons c e =>
      have hbyte : bitsOf (b ^^^ c).toBitVec =
          List.zipWith xor (bitsOf b.toBitVec) (bitsOf c.toBitVec) := by
        rw [UInt8.toBitVec_xor, bitsOf_xor]
      have hsplit : List.zipWith xor (messageBits (b :: m)) (messageBits (c :: e)) =
          List.zipWith xor (bitsOf b.toBitVec) (bitsOf c.toBitVec) ++
            List.zipWith xor (messageBits m) (messageBits e) :=
        List.zipWith_append (by rw [bitsOf_length, bitsOf_length])
      rw [hsplit, ← hbyte, ← ih (Nat.succ.inj same)]
      rfl

theorem checksum_corrupt_eq_iff {m e : List UInt8} (same : e.length = m.length) :
    checksum 0 (corrupt m e) = checksum 0 m ↔ remainder GENERATOR 0#8 (messageBits e) = 0#8 := by
  have hlen : (messageBits m).length = (messageBits e).length := by
    rw [messageBits_length, messageBits_length, same]
  rw [← UInt8.toBitVec_inj, checksum_toBitVec, checksum_toBitVec, messageBits_corrupt same]
  exact remainder_error_iff hlen

/-- Some bit of the pattern is set. -/
def NonZero (e : List UInt8) : Prop := ∃ b ∈ e, b ≠ 0

/-- All set bits lie within 8 consecutive bits. -/
def Burst (e : List UInt8) : Prop :=
  ∃ k, ∀ i, (messageBits e)[i]? = some true → k ≤ i ∧ i < k + 8

/-- The number of set bits is odd. -/
def OddWeight (e : List UInt8) : Prop := Odd ((messageBits e).count true)

theorem true_mem_messageBits {e : List UInt8} (h : NonZero e) : true ∈ messageBits e := by
  obtain ⟨b, hb, hne⟩ := h
  refine List.mem_flatMap.2 ⟨b, hb, ?_⟩
  by_contra hnone
  apply hne
  rw [← UInt8.toBitVec_inj]
  apply BitVec.eq_of_getMsbD_eq
  intro i hi
  have hbit : b.toBitVec.getMsbD i ≠ true := by
    intro h
    exact hnone (List.mem_map.2 ⟨i, List.mem_range.2 hi, h⟩)
  simpa using hbit

/-- Every non-zero error pattern that is a burst of at most 8 bits or has odd weight changes
the checksum. -/
theorem crc8_detects {m e : List UInt8} (short : m.length ≤ 255)
    (same : e.length = m.length) (nonZero : NonZero e) (kind : Burst e ∨ OddWeight e) :
    ∃ c d, crc8 m (UInt8.ofNat m.length) = some c ∧
      crc8 (corrupt m e) (UInt8.ofNat m.length) = some d ∧ d ≠ c := by
  have hcorrupt : (corrupt m e).length = m.length := by
    rw [corrupt, List.length_zipWith, same, Nat.min_self]
  refine ⟨checksum 0 m, checksum 0 (corrupt m e), crc8_eq short, ?_, ?_⟩
  · rw [← hcorrupt]
    exact crc8_eq (Nat.le_trans (Nat.le_of_eq hcorrupt) short)
  · rw [ne_eq, checksum_corrupt_eq_iff same]
    rcases kind with ⟨k, window⟩ | odd
    · exact remainder_window_ne_zero (by decide) k window (true_mem_messageBits nonZero)
    · exact remainder_odd_ne_zero (by decide) odd

/-- A burst across two bytes. -/
theorem crc8_detects_burst : ∃ c d, crc8 [0x10, 0x11, 0x12] (UInt8.ofNat 3) = some c ∧
    crc8 (corrupt [0x10, 0x11, 0x12] [0x00, 0x01, 0x80]) (UInt8.ofNat 3) = some d ∧ d ≠ c := by
  refine crc8_detects (m := [0x10, 0x11, 0x12]) (e := [0x00, 0x01, 0x80]) (by decide) rfl
    ⟨0x01, by decide, by decide⟩ (Or.inl ⟨15, fun i hi => ?_⟩)
  have hlt : i < 24 := (List.getElem?_eq_some_iff.1 hi).1
  have hset : ∀ i : Fin 24, (messageBits [0x00, 0x01, 0x80])[i.1]? = some true →
      15 ≤ i.1 ∧ i.1 < 15 + 8 := by decide
  exact hset ⟨i, hlt⟩ hi

/-! ## The check of the receiver -/

/-- Only the register zero is shifted to zero. -/
theorem shiftBits_eq_zero_iff (rounds : Nat) (crc : UInt8) :
    shiftBits rounds crc = 0 ↔ crc = 0 := by
  rw [← UInt8.toBitVec_inj, ← UInt8.toBitVec_inj, shiftBits_toBitVec]
  constructor
  · exact remainder_eq_zero_of_zeros (by decide) rounds
  · intro hzero
    rw [hzero]
    exact remainder_zeros rounds

theorem checksum_concat_eq_zero_iff (m : List UInt8) (c : UInt8) :
    checksum 0 (m ++ [c]) = 0 ↔ checksum 0 m = c := by
  have hstep : checksum 0 (m ++ [c]) = shiftBits 8 (checksum 0 m ^^^ c) := List.foldl_concat ..
  rw [hstep, shiftBits_eq_zero_iff, UInt8.xor_eq_zero_iff]

/-- Both functions return the same checksum of a message, and a message with a byte behind it has
the checksum zero exactly when the byte is the checksum of the message. -/
theorem crc8_check_iff {m : List UInt8} (c : UInt8) (short : m.length ≤ 254) :
    (∃ d, crc8 m (UInt8.ofNat m.length) = some d ∧
      crc8Table m (UInt8.ofNat m.length) = some d) ∧
    (crc8 (m ++ [c]) (UInt8.ofNat (m ++ [c]).length) = some 0 ↔
      crc8 m (UInt8.ofNat m.length) = some c) ∧
    (crc8Table (m ++ [c]) (UInt8.ofNat (m ++ [c]).length) = some 0 ↔
      crc8Table m (UInt8.ofNat m.length) = some c) := by
  have hlong : (m ++ [c]).length ≤ 255 := by
    rw [List.length_append, List.length_singleton]
    omega
  have hcheck : crc8 (m ++ [c]) (UInt8.ofNat (m ++ [c]).length) = some 0 ↔
      crc8 m (UInt8.ofNat m.length) = some c := by
    rw [crc8_eq hlong, crc8_eq (Nat.le_succ_of_le short), Option.some_inj, Option.some_inj]
    exact checksum_concat_eq_zero_iff m c
  refine ⟨⟨checksum 0 m, ?_, ?_⟩, hcheck, ?_⟩
  · exact crc8_eq (Nat.le_succ_of_le short)
  · rw [crc8Table, tableLoop_eq]
    exact crc8_eq (Nat.le_succ_of_le short)
  · rw [crc8Table, crc8Table, tableLoop_eq, tableLoop_eq]
    exact hcheck

theorem crc8_check_iff_arr6 :
    (∃ d, crc8 [0x10, 0x11, 0x12, 0x13, 0x14, 0x15] 6 = some d ∧
      crc8Table [0x10, 0x11, 0x12, 0x13, 0x14, 0x15] 6 = some d) ∧
    (crc8 [0x10, 0x11, 0x12, 0x13, 0x14, 0x15, 0xF2] 7 = some 0 ↔
      crc8 [0x10, 0x11, 0x12, 0x13, 0x14, 0x15] 6 = some 0xF2) ∧
    (crc8Table [0x10, 0x11, 0x12, 0x13, 0x14, 0x15, 0xF2] 7 = some 0 ↔
      crc8Table [0x10, 0x11, 0x12, 0x13, 0x14, 0x15] 6 = some 0xF2) :=
  crc8_check_iff (m := [0x10, 0x11, 0x12, 0x13, 0x14, 0x15]) 0xF2 (by decide)

end CFunction.Crc8
