import CFunction.Encode.Proofs.Base64Bits

/-!
# The decoder on arbitrary text

Three things decide whether `base64_decode` stays inside its table and its buffer: `table` ends
at `z`, the loop index is an `int`, and a `=` is subtracted from the length even where no group
is there to subtract it from. What the loop stores lies in front of what it still reads, so it
reads the characters of the text, and in the last round at most the NUL behind them.
-/

namespace CFunction
namespace Base64

open CString

/-! ### The table -/

set_option maxRecDepth 2000 in
theorem table_of_lt {c : UInt8} (h : c.toNat < 123) : ∃ t, table[c.toNat]? = some t ∧ t < 64 := by
  have hlen : table.length = 123 := rfl
  have hall : ∀ t ∈ table, t < 64 := by decide
  have hc : c.toNat < table.length := by rw [hlen]; exact h
  exact ⟨table[c.toNat], List.getElem?_eq_getElem hc, hall _ (List.getElem_mem hc)⟩

/-- A lookup that has a result has found its character inside the table. -/
theorem lt_of_lookup {code tl : Bytes} {i t : Nat} {c : UInt8} (h : code.drop i = c :: tl)
    (found : lookup code i = some t) : c.toNat < 123 := by
  have hlen : table.length = 123 := rfl
  simp only [lookup, load_of_drop h, Option.bind_eq_bind, Option.bind_some,
    Option.bind_eq_some_iff] at found
  obtain ⟨t', ht', -⟩ := found
  have hc := (List.getElem?_eq_some_iff.1 ht').1
  rw [hlen] at hc
  exact hc

theorem lookup_neg (code : Bytes) {i : Int} (h : i < 0) : lookup code i = none := by
  rw [lookup, load, if_neg (by omega)]
  rfl

/-! ### One round -/

theorem store_length {buf buf' : Bytes} {i : Int} {b : UInt8} (h : store buf i b = some buf') :
    buf'.length = buf.length := by
  unfold store at h
  split at h
  · obtain rfl := Option.some.inj h
    exact List.length_set
  · exact absurd h (by simp)

theorem store_drop {buf buf' : Bytes} {i k : Nat} {b : UInt8} (h : store buf i b = some buf')
    (hik : i < k) : buf'.drop k = buf.drop k := by
  unfold store at h
  split at h
  · obtain rfl := Option.some.inj h
    exact drop_set_of_lt b hik
  · exact absurd h (by simp)

/-- A round that has a result has read four characters inside the table. -/
theorem decodeStep_result {code code' tl : Bytes} {i j : Nat} {c0 c1 c2 c3 : UInt8}
    (hi : i + 3 ≤ 2147483647) (hji : j ≤ i) (hdrop : code.drop i = c0 :: c1 :: c2 :: c3 :: tl)
    (hstep : decodeStep code i j = some code') :
    code'.length = code.length ∧ ∀ c ∈ [c0, c1, c2, c3], c.toNat < 123 := by
  have d1 : code.drop (i + 1) = c1 :: c2 :: c3 :: tl := by
    rw [List.drop_add_one_eq_tail_drop, hdrop]; rfl
  have d2 : code.drop (i + 2) = c2 :: c3 :: tl := by
    rw [List.drop_add_one_eq_tail_drop, d1]; rfl
  have d3 : code.drop (i + 3) = c3 :: tl := by
    rw [List.drop_add_one_eq_tail_drop, d2]; rfl
  rw [decodeStep_nat code hi (by omega)] at hstep
  simp only [Option.bind_eq_bind, Option.bind_eq_some_iff] at hstep
  obtain ⟨a0, ha0, a1, ha1, codeA, hA, b1, -, b2, hb2, codeB, hB, x2, -, x3, hx3, hC⟩ := hstep
  refine ⟨(store_length hC).trans ((store_length hB).trans (store_length hA)), ?_⟩
  have l0 := lt_of_lookup hdrop ha0
  have l1 := lt_of_lookup d1 ha1
  have l2 := lt_of_lookup ((store_drop hA (by omega)).trans d2) hb2
  have l3 := lt_of_lookup
    ((store_drop hB (by omega)).trans ((store_drop hA (by omega)).trans d3)) hx3
  intro c hc
  simp only [List.mem_cons, List.not_mem_nil, or_false] at hc
  rcases hc with rfl | rfl | rfl | rfl
  · exact l0
  · exact l1
  · exact l2
  · exact l3

theorem drop_four {code : Bytes} {i : Nat} (h : i + 4 ≤ code.length) :
    ∃ c0 c1 c2 c3, code.drop i = c0 :: c1 :: c2 :: c3 :: code.drop (i + 4) := by
  refine ⟨code[i], code[i + 1], code[i + 2], code[i + 3], ?_⟩
  rw [List.drop_eq_getElem_cons (by omega), List.drop_eq_getElem_cons (by omega),
    List.drop_eq_getElem_cons (by omega), List.drop_eq_getElem_cons (by omega)]

/-- A round on four characters inside the table. -/
theorem decodeStep_of_lt {code : Bytes} {i j : Nat} {c0 c1 c2 c3 : UInt8} {tl : Bytes}
    (hi : i + 4 ≤ 2147483647) (hji : j ≤ i) (hdrop : code.drop i = c0 :: c1 :: c2 :: c3 :: tl)
    (inside : ∀ c ∈ [c0, c1, c2, c3], c.toNat < 123) :
    ∃ code', decodeStep code i j = some code' ∧ code'.drop (i + 4) = tl := by
  obtain ⟨t0, h0, l0⟩ := table_of_lt (inside c0 (by simp))
  obtain ⟨t1, h1, l1⟩ := table_of_lt (inside c1 (by simp))
  obtain ⟨t2, h2, l2⟩ := table_of_lt (inside c2 (by simp))
  obtain ⟨t3, h3, l3⟩ := table_of_lt (inside c3 (by simp))
  obtain ⟨code', hstep, hrest, -⟩ := decodeStep_eq hi hji hdrop h0 h1 h2 h3 l0 l1 l2 l3
  exact ⟨code', hstep, hrest⟩

/-- A round reads four characters inside the table, or it has no result. -/
theorem decodeStep_cases {code : Bytes} {i j : Nat} {c0 c1 c2 c3 : UInt8} {tl : Bytes}
    (hi : i + 4 ≤ 2147483647) (hji : j ≤ i) (hdrop : code.drop i = c0 :: c1 :: c2 :: c3 :: tl) :
    ((∀ c ∈ [c0, c1, c2, c3], c.toNat < 123) ∧ ∃ code', decodeStep code i j = some code' ∧
        code'.drop (i + 4) = tl ∧ code'.length = code.length) ∨
      (¬ (∀ c ∈ [c0, c1, c2, c3], c.toNat < 123) ∧ decodeStep code i j = none) := by
  by_cases inside : ∀ c ∈ [c0, c1, c2, c3], c.toNat < 123
  · obtain ⟨code', hstep, hrest⟩ := decodeStep_of_lt hi hji hdrop inside
    have hlen := (decodeStep_result (by omega) hji hdrop hstep).1
    exact .inl ⟨inside, code', hstep, hrest, hlen⟩
  · refine .inr ⟨inside, ?_⟩
    cases hstep : decodeStep code i j with
    | none => rfl
    | some code' => exact absurd (decodeStep_result (by omega) hji hdrop hstep).2 inside

/-! ### The loop -/

/-- From `i` on the loop reads whole groups of four, as far as the buffer of `len + 1` bytes
goes, and it ends if these are inside the table. -/
theorem decodeLoop_isSome {len : Nat} (int : len + 1 < 2147483648) :
    ∀ (fuel : Nat) (code : Bytes) (i j : Nat), code.length = len + 1 → j ≤ i →
      len ≤ i + fuel →
      ((∃ buf, decodeLoop len fuel code i j = some buf ∧ buf.length = len + 1) ↔
        ∀ c ∈ (code.drop i).take (4 * ((len + 1 - i) / 4)), c.toNat < 123) := by
  intro fuel
  induction fuel with
  | zero =>
    intro code i j hlen hji hfuel
    have hrounds : (len + 1 - i) / 4 = 0 := by omega
    rw [hrounds, decodeLoop_done 0 (by omega)]
    simp [hlen]
  | succ fuel ih =>
    intro code i j hlen hji hfuel
    by_cases hround : i + 3 ≤ len
    · have hfour : i + 4 ≤ code.length := by omega
      obtain ⟨c0, c1, c2, c3, hdrop⟩ := drop_four hfour
      have hrounds : 4 * ((len + 1 - i) / 4) = 4 * ((len + 1 - (i + 4)) / 4) + 4 := by omega
      have hread : (code.drop i).take (4 * ((len + 1 - i) / 4)) =
          [c0, c1, c2, c3] ++ (code.drop (i + 4)).take (4 * ((len + 1 - (i + 4)) / 4)) := by
        rw [hdrop, hrounds]
        rfl
      rw [hread, List.forall_mem_append]
      rcases decodeStep_cases (by omega) hji hdrop with
        ⟨inside, code', hstep, hrest, hlen'⟩ | ⟨outside, hstep⟩
      · have hnext := ih code' (i + 4) (j + 3) (hlen'.trans hlen) (by omega) (by omega)
        rw [hrest] at hnext
        rw [decodeLoop_succ fuel (by omega) (by omega) hji hstep, hnext]
        exact ⟨fun h => ⟨inside, h⟩, fun h => h.2⟩
      · rw [decodeLoop, if_pos (by omega), hstep]
        refine iff_of_false ?_ (fun h => outside h.1)
        rintro ⟨buf, hloop, -⟩
        exact absurd hloop (by simp)
    · have hrounds : (len + 1 - i) / 4 = 0 := by omega
      have hdone : decodeLoop len (fuel + 1) code i j = some code := by
        rw [decodeLoop, if_neg (by omega)]
      rw [hrounds, hdone]
      simp [hlen]

/-- An `int` index that has wrapped reads in front of the buffer. -/
theorem decodeLoop_neg {len i : Int} (hi : i < 0) (hlen : i < len - 2) (fuel : Nat) (code : Bytes)
    (j : Int) : decodeLoop len fuel code i j = none := by
  cases fuel with
  | zero => rw [decodeLoop, if_pos hlen]
  | succ fuel =>
    rw [decodeLoop, if_pos hlen, decodeStep, lookup_neg code hi]
    rfl

/-- With `len` at the end of the `int`s the index wraps before the loop ends. -/
theorem decodeLoop_wraps {len : Int} (hlen : 2147483647 ≤ len) :
    ∀ (fuel : Nat) (code : Bytes) (k : Nat) (j : Int), 4 * k ≤ 2147483644 →
      decodeLoop len fuel code (4 * k : Nat) j = none := by
  intro fuel
  induction fuel with
  | zero =>
    intro code k j hk
    rw [decodeLoop, if_pos (by omega)]
  | succ fuel ih =>
    intro code k j hk
    rw [decodeLoop, if_pos (by omega)]
    cases decodeStep code (4 * k : Nat) j with
    | none => rfl
    | some code' =>
      rw [Option.bind_eq_bind, Option.bind_some]
      by_cases hlast : 4 * (k + 1) ≤ 2147483644
      · rw [toInt32_eq_nat (n := 4 * (k + 1)) (by omega) (by omega)]
        exact ih code' (k + 1) _ hlast
      · have hwrap : toInt32 (((4 * k : Nat) : Int) + 4) = -2147483648 := by
          rw [show ((4 * k : Nat) : Int) + 4 = 2147483648 by omega]
          rfl
        rw [hwrap]
        exact decodeLoop_neg (by decide) (by omega) fuel code' _

/-! ### The length -/

theorem decodedLength_le (text : Bytes) : decodedLength text ≤ 3 * (text.length / 4 : Nat) := by
  rw [decodedLength, Int.tdiv_eq_ediv_of_nonneg (by omega)]
  split
  · omega
  · split <;> omega

theorem le_decodedLength (text : Bytes) : -2 ≤ decodedLength text := by
  rw [decodedLength, Int.tdiv_eq_ediv_of_nonneg (by omega)]
  split
  · omega
  · split <;> omega

theorem decodedLength_nonneg (text : Bytes) :
    0 ≤ decodedLength text ↔ (ascii '=' ∈ text → 4 ≤ text.length) := by
  rw [decodedLength, Int.tdiv_eq_ediv_of_nonneg (by omega)]
  by_cases one : ascii '=' ∈ text
  · rw [if_pos (strstr_singleton_isSome.2 one)]
    have hsub : ∀ d : Int, 1 ≤ d → d ≤ 2 →
        (0 ≤ (text.length : Int) / 4 * 3 - d ↔ (ascii '=' ∈ text → 4 ≤ text.length)) :=
      fun d h1 h2 => ⟨fun h _ => by omega, fun h => by have := h one; omega⟩
    split
    · exact hsub 2 (by decide) (by decide)
    · exact hsub 1 (by decide) (by decide)
  · rw [if_neg fun h => one (mem_of_strstr h), if_neg fun h => one (mem_of_strstr h)]
    exact ⟨fun _ h => absurd h one, fun _ => by omega⟩

/-! ### Safety -/

/-- Run on `text` and its NUL, and nothing behind it, the decoder ends, and its result is the
index of a byte of this buffer that is not behind the bytes of the whole groups. -/
def DecodesSafely (text : Bytes) : Prop :=
  ∃ buf r, base64Decode (text ++ [0]) = some (buf, r) ∧ buf.length = text.length + 1 ∧
    0 ≤ r ∧ r ≤ 3 * (text.length / 4 : Nat)

/-- The characters that the loop reads are not behind `z`, a `=` is not in front of the end of
the first group, and the index of the NUL is below the last `int`. -/
def DecodableText (text : Bytes) : Prop :=
  (∀ c ∈ text.take (4 * ((text.length + 1) / 4)), c.toNat < 123) ∧
    (ascii '=' ∈ text → 4 ≤ text.length) ∧ text.length + 1 < 2147483648

theorem base64Decode_eq {text : Bytes} (string : 0 ∉ text) :
    base64Decode (text ++ [0]) =
      (decodeLoop text.length (text.length + 1) (text ++ [0]) (0 : Nat) (0 : Nat)).map
        fun buf => (buf, toInt32 (decodedLength text)) := by
  rw [base64Decode, strlen_append_nul [] string, cstr_append_nul [] string, Option.bind_eq_bind,
    Option.bind_some, List.length_append, Option.map_eq_bind]
  rfl

/-- What the loop reads of the buffer is text, or the NUL, which is in the table. -/
theorem read_of_text (text : Bytes) :
    (∀ c ∈ (text ++ [0]).take (4 * ((text.length + 1) / 4)), c.toNat < 123) ↔
      ∀ c ∈ text.take (4 * ((text.length + 1) / 4)), c.toNat < 123 := by
  rw [List.take_append, List.forall_mem_append]
  refine ⟨And.left, fun h => ⟨h, fun c hc => ?_⟩⟩
  rw [List.mem_singleton.1 (List.mem_of_mem_take hc)]
  decide

/-- `base64_decode` is safe exactly on decodable text. -/
theorem base64Decode_safe_iff {text : Bytes} (string : 0 ∉ text) :
    DecodesSafely text ↔ DecodableText text := by
  unfold DecodesSafely DecodableText
  rw [base64Decode_eq string]
  by_cases int : text.length + 1 < 2147483648
  · have hloop := decodeLoop_isSome int (text.length + 1) (text ++ [0]) 0 0 (by simp)
      (Nat.le_refl 0) (by omega)
    rw [Nat.sub_zero, List.drop_zero, read_of_text] at hloop
    have hle := decodedLength_le text
    have hge := le_decodedLength text
    have hret : toInt32 (decodedLength text) = decodedLength text :=
      toInt32_of_inInt ⟨by omega, by omega⟩
    rw [hret, ← hloop, ← decodedLength_nonneg]
    constructor
    · rintro ⟨buf, r, hrun, hlen, hnonneg, -⟩
      obtain ⟨buf', hbuf, hpair⟩ := Option.map_eq_some_iff.1 hrun
      obtain ⟨rfl, rfl⟩ := Prod.mk.inj hpair
      exact ⟨⟨buf', hbuf, hlen⟩, hnonneg, int⟩
    · rintro ⟨⟨buf, hbuf, hlen⟩, hnonneg, -⟩
      exact ⟨buf, decodedLength text, by rw [hbuf]; rfl, hlen, hnonneg, hle⟩
  · have hlong : (2147483647 : Int) ≤ (text.length : Int) := by omega
    have hwrap := decodeLoop_wraps hlong (text.length + 1) (text ++ [0]) 0 (0 : Nat) (by omega)
    rw [Nat.mul_zero] at hwrap
    rw [hwrap]
    constructor
    · rintro ⟨buf, r, hrun, -⟩
      exact absurd hrun (by simp)
    · rintro ⟨-, -, h⟩
      exact absurd h int

theorem base64Decode_safe_iff_six : DecodesSafely [81, 85, 74, 68, 81, 61] ↔
    DecodableText [81, 85, 74, 68, 81, 61] := base64Decode_safe_iff (by decide)

/-- The string `{{{` makes the decoder read behind its table. -/
theorem base64Decode_not_safe : ¬ ∀ text : Bytes, 0 ∉ text → DecodesSafely text := by
  intro h
  obtain ⟨buf, r, hrun, -⟩ := h [123, 123, 123] (by decide)
  have hnone : base64Decode ([123, 123, 123] ++ [0]) = none := rfl
  exact absurd (hnone.symm.trans hrun) (by simp)

end Base64
end CFunction
