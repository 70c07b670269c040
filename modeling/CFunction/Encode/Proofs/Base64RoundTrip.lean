import CFunction.Encode.Base64
import Mathlib.Data.List.Induction
import Mathlib.Data.Nat.Bitwise

/-!
# The decoder undoes the encoder in place

The text is described group by group, three bytes against four characters. One round of the
decoding loop reads the four characters at `i` and writes three bytes at `j ≤ i`, so that the
text from `i + 4` on is still what the encoder wrote.
-/

namespace CFunction
namespace Base64

open CString

/-! ### The two tables -/

/-- The character of a 6-bit value. -/
def encChar (k : Nat) : UInt8 := ENC.getD k 0

theorem ENC_getElem? {k : Nat} (h : k < 64) : ENC[k]? = some (encChar k) := by
  have hlen : ENC.length = 64 := rfl
  rw [encChar, List.getD_eq_getElem?_getD, List.getElem?_eq_getElem (by omega)]
  rfl

theorem table_encChar {k : Nat} (h : k < 64) : table[(encChar k).toNat]? = some k := by
  have hall : ∀ k : Fin 64, table[(encChar k).toNat]? = some k.val := by decide
  exact hall ⟨k, h⟩

theorem table_pad : table[(ascii '=').toNat]? = some 0 := rfl

theorem encChar_ne {k : Nat} (h : k < 64) : encChar k ≠ 0 ∧ ascii '=' ≠ encChar k := by
  have hall : ∀ k : Fin 64, encChar k ≠ 0 ∧ ascii '=' ≠ encChar k := by decide
  exact hall ⟨k, h⟩

/-! ### The 6-bit values of a group -/

def sextet0 (b0 : UInt8) : Nat := b0.toNat >>> 2
def sextet1 (b0 b1 : UInt8) : Nat := ((b0.toNat &&& 0x3) <<< 4) ||| (b1.toNat >>> 4)
def sextet2 (b1 b2 : UInt8) : Nat := ((b1.toNat &&& 0xF) <<< 2) ||| (b2.toNat >>> 6)
def sextet3 (b2 : UInt8) : Nat := b2.toNat &&& 0x3F

/-- `|` joins a shifted value and a small one. -/
theorem shiftLeft_or {k b : Nat} (a : Nat) (h : b < 2 ^ k) : (a <<< k) ||| b = a * 2 ^ k + b := by
  rw [← Nat.shiftLeft_add_eq_or_of_lt h, Nat.shiftLeft_eq]

theorem sextet0_eq (b0 : UInt8) : sextet0 b0 = b0.toNat / 4 := by
  rw [sextet0, Nat.shiftRight_eq_div_pow]

theorem sextet1_eq (b0 b1 : UInt8) : sextet1 b0 b1 = b0.toNat % 4 * 16 + b1.toNat / 16 := by
  have h1 := b1.toNat_lt
  rw [sextet1, Nat.shiftRight_eq_div_pow, shiftLeft_or _ (by omega)]
  rw [show (0x3 : Nat) = 2 ^ 2 - 1 by rfl, Nat.and_two_pow_sub_one_eq_mod]
  rfl

theorem sextet2_eq (b1 b2 : UInt8) : sextet2 b1 b2 = b1.toNat % 16 * 4 + b2.toNat / 64 := by
  have h2 := b2.toNat_lt
  rw [sextet2, Nat.shiftRight_eq_div_pow, shiftLeft_or _ (by omega)]
  rw [show (0xF : Nat) = 2 ^ 4 - 1 by rfl, Nat.and_two_pow_sub_one_eq_mod]
  rfl

theorem sextet3_eq (b2 : UInt8) : sextet3 b2 = b2.toNat % 64 := by
  rw [sextet3, show (0x3F : Nat) = 2 ^ 6 - 1 by rfl, Nat.and_two_pow_sub_one_eq_mod]

theorem sextet0_lt (b0 : UInt8) : sextet0 b0 < 64 := by
  have h0 := b0.toNat_lt
  rw [sextet0_eq]
  omega

theorem sextet1_lt (b0 b1 : UInt8) : sextet1 b0 b1 < 64 := by
  have h1 := b1.toNat_lt
  rw [sextet1_eq]
  omega

theorem sextet2_lt (b1 b2 : UInt8) : sextet2 b1 b2 < 64 := by
  have h2 := b2.toNat_lt
  rw [sextet2_eq]
  omega

theorem sextet3_lt (b2 : UInt8) : sextet3 b2 < 64 := by
  rw [sextet3_eq]
  omega

/-- The three bytes that the decoder stores for four 6-bit values. -/
def joinByte0 (s0 s1 : Nat) : UInt8 := UInt8.ofNat ((s0 <<< 2) ||| (s1 >>> 4))
def joinByte1 (s1 s2 : Nat) : UInt8 := UInt8.ofNat ((s1 <<< 4) ||| (s2 >>> 2))
def joinByte2 (s2 s3 : Nat) : UInt8 := UInt8.ofNat ((s2 <<< 6) ||| s3)

theorem joinByte0_sextets (b0 b1 : UInt8) : joinByte0 (sextet0 b0) (sextet1 b0 b1) = b0 := by
  have h0 := b0.toNat_lt
  have h1 := sextet1_lt b0 b1
  have e1 := sextet1_eq b0 b1
  have := b1.toNat_lt
  apply UInt8.toNat_inj.1
  rw [joinByte0, Nat.shiftRight_eq_div_pow, shiftLeft_or _ (by omega), sextet0_eq,
    UInt8.toNat_ofNat']
  omega

theorem joinByte1_sextets (b0 b1 b2 : UInt8) :
    joinByte1 (sextet1 b0 b1) (sextet2 b1 b2) = b1 := by
  have h1 := b1.toNat_lt
  have h2 := b2.toNat_lt
  have e1 := sextet1_eq b0 b1
  have e2 := sextet2_eq b1 b2
  apply UInt8.toNat_inj.1
  rw [joinByte1, Nat.shiftRight_eq_div_pow, shiftLeft_or _ (by omega), UInt8.toNat_ofNat']
  omega

theorem joinByte2_sextets (b1 b2 : UInt8) : joinByte2 (sextet2 b1 b2) (sextet3 b2) = b2 := by
  have h2 := b2.toNat_lt
  have e2 := sextet2_eq b1 b2
  have h3 := sextet3_lt b2
  apply UInt8.toNat_inj.1
  rw [joinByte2, shiftLeft_or _ (by omega), UInt8.toNat_ofNat', sextet3_eq]
  omega

/-! ### The encoder's text -/

/-- The four characters of a whole group. -/
def group (b0 b1 b2 : UInt8) : Bytes :=
  [encChar (sextet0 b0), encChar (sextet1 b0 b1), encChar (sextet2 b1 b2), encChar (sextet3 b2)]

/-- The text of a byte string. A byte that is missing in the last group counts as 0, and its
characters are `=`. -/
def encodeText : Bytes → Bytes
  | [] => []
  | [b0] => [encChar (sextet0 b0), encChar (sextet1 b0 0), ascii '=', ascii '=']
  | [b0, b1] =>
    [encChar (sextet0 b0), encChar (sextet1 b0 b1), encChar (sextet2 b1 0), ascii '=']
  | b0 :: b1 :: b2 :: rest => group b0 b1 b2 ++ encodeText rest

theorem encodeLoop_eq (inp out : Bytes) :
    encodeLoop inp inp.length out = some (out ++ encodeText inp) := by
  induction inp using encodeText.induct generalizing out with
  | case1 => simp [encodeLoop, encodeText]
  | case2 b0 =>
    have h0 := ENC_getElem? (sextet0_lt b0)
    have h1 := ENC_getElem? (sextet1_lt b0 0)
    simp only [sextet0, sextet1] at h0 h1
    simp_all [encodeLoop, encodeText, sextet0, sextet1]
  | case3 b0 b1 =>
    have h0 := ENC_getElem? (sextet0_lt b0)
    have h1 := ENC_getElem? (sextet1_lt b0 b1)
    have h2 := ENC_getElem? (sextet2_lt b1 0)
    simp only [sextet0, sextet1, sextet2] at h0 h1 h2
    simp_all [encodeLoop, encodeText, sextet0, sextet1, sextet2]
  | case4 b0 b1 b2 rest ih =>
    have h0 := ENC_getElem? (sextet0_lt b0)
    have h1 := ENC_getElem? (sextet1_lt b0 b1)
    have h2 := ENC_getElem? (sextet2_lt b1 b2)
    have h3 := ENC_getElem? (sextet3_lt b2)
    simp only [sextet0, sextet1, sextet2, sextet3] at h0 h1 h2 h3
    simp [encodeLoop, encodeText, group, h0, h1, h2, h3, ih, sextet0, sextet1, sextet2, sextet3]

theorem encodeText_length (inp : Bytes) :
    (encodeText inp).length = 4 * ((inp.length + 2) / 3) := by
  induction inp using encodeText.induct with
  | case1 => rfl
  | case2 => simp [encodeText]
  | case3 => simp [encodeText]
  | case4 b0 b1 b2 rest ih =>
    rw [encodeText, List.length_append, ih]
    simp only [group, List.length_cons, List.length_nil]
    omega

theorem zero_notMem_encodeText (inp : Bytes) : 0 ∉ encodeText inp := by
  induction inp using encodeText.induct with
  | case1 => simp [encodeText]
  | case2 b0 =>
    have h0 := (encChar_ne (sextet0_lt b0)).1
    have h1 := (encChar_ne (sextet1_lt b0 0)).1
    simp [encodeText, h0.symm, h1.symm, ascii]
  | case3 b0 b1 =>
    have h0 := (encChar_ne (sextet0_lt b0)).1
    have h1 := (encChar_ne (sextet1_lt b0 b1)).1
    have h2 := (encChar_ne (sextet2_lt b1 0)).1
    simp [encodeText, h0.symm, h1.symm, h2.symm, ascii]
  | case4 b0 b1 b2 rest ih =>
    have h0 := (encChar_ne (sextet0_lt b0)).1
    have h1 := (encChar_ne (sextet1_lt b0 b1)).1
    have h2 := (encChar_ne (sextet2_lt b1 b2)).1
    have h3 := (encChar_ne (sextet3_lt b2)).1
    simp [encodeText, group, h0.symm, h1.symm, h2.symm, h3.symm, ih]

/-- The search for `=` skips a whole group. -/
theorem strstr_group_isSome (pat rest : Bytes) (b0 b1 b2 : UInt8) :
    (strstr (ascii '=' :: pat) (group b0 b1 b2 ++ rest)).isSome =
      (strstr (ascii '=' :: pat) rest).isSome := by
  simp only [group, List.cons_append, List.nil_append]
  rw [strstr_cons_of_ne (encChar_ne (sextet0_lt b0)).2,
    strstr_cons_of_ne (encChar_ne (sextet1_lt b0 b1)).2,
    strstr_cons_of_ne (encChar_ne (sextet2_lt b1 b2)).2,
    strstr_cons_of_ne (encChar_ne (sextet3_lt b2)).2]
  simp only [Option.isSome_map]

theorem strstr_one_pad (inp : Bytes) :
    (strstr [ascii '='] (encodeText inp)).isSome = decide (inp.length % 3 ≠ 0) := by
  induction inp using encodeText.induct with
  | case1 => rfl
  | case2 b0 =>
    rw [encodeText, strstr_cons_of_ne (encChar_ne (sextet0_lt b0)).2,
      strstr_cons_of_ne (encChar_ne (sextet1_lt b0 0)).2]
    rfl
  | case3 b0 b1 =>
    rw [encodeText, strstr_cons_of_ne (encChar_ne (sextet0_lt b0)).2,
      strstr_cons_of_ne (encChar_ne (sextet1_lt b0 b1)).2,
      strstr_cons_of_ne (encChar_ne (sextet2_lt b1 0)).2]
    rfl
  | case4 b0 b1 b2 rest ih =>
    rw [encodeText, strstr_group_isSome, ih]
    simp only [List.length_cons]
    congr 2
    omega

theorem strstr_two_pads (inp : Bytes) :
    (strstr [ascii '=', ascii '='] (encodeText inp)).isSome = decide (inp.length % 3 = 1) := by
  induction inp using encodeText.induct with
  | case1 => rfl
  | case2 b0 =>
    rw [encodeText, strstr_cons_of_ne (encChar_ne (sextet0_lt b0)).2,
      strstr_cons_of_ne (encChar_ne (sextet1_lt b0 0)).2]
    rfl
  | case3 b0 b1 =>
    rw [encodeText, strstr_cons_of_ne (encChar_ne (sextet0_lt b0)).2,
      strstr_cons_of_ne (encChar_ne (sextet1_lt b0 b1)).2,
      strstr_cons_of_ne (encChar_ne (sextet2_lt b1 0)).2]
    rfl
  | case4 b0 b1 b2 rest ih =>
    rw [encodeText, strstr_group_isSome, ih]
    simp only [List.length_cons]
    congr 1
    simp only [eq_iff_iff]
    omega

theorem decodedLength_encodeText (inp : Bytes) : decodedLength (encodeText inp) = inp.length := by
  rw [decodedLength, strstr_two_pads, strstr_one_pad, encodeText_length]
  simp only [decide_eq_true_eq]
  rw [Int.tdiv_eq_ediv_of_nonneg (by omega)]
  split
  · omega
  · split <;> omega

/-! ### The decoding loop -/

theorem lookup_of_drop {code tl : Bytes} {i t : Nat} {c : UInt8} (h : code.drop i = c :: tl)
    (ht : table[c.toNat]? = some t) (hlt : t < 64) : lookup code i = some t := by
  simp only [lookup, load_of_drop h, ht, Option.bind_eq_bind, Option.bind_some]
  rw [Nat.mod_eq_of_lt (by omega)]

/-- With small indices no index of a round wraps. -/
theorem decodeStep_nat (code : Bytes) {i j : Nat} (hi : i + 3 ≤ 2147483647)
    (hj : j + 2 ≤ 2147483647) :
    decodeStep code i j = (do
      let a0 ← lookup code i
      let a1 ← lookup code (i + 1 : Nat)
      let code ← store code j (joinByte0 a0 a1)
      let b1 ← lookup code (i + 1 : Nat)
      let b2 ← lookup code (i + 2 : Nat)
      let code ← store code (j + 1 : Nat) (joinByte1 b1 b2)
      let c2 ← lookup code (i + 2 : Nat)
      let c3 ← lookup code (i + 3 : Nat)
      store code (j + 2 : Nat) (joinByte2 c2 c3)) := by
  have hadd : ∀ n k : Nat, n + k ≤ 2147483647 → toInt32 ((n : Int) + (k : Int)) = (n + k : Nat) :=
    fun n k h => toInt32_eq_nat rfl h
  rw [decodeStep, ← hadd i 1 (by omega), ← hadd i 2 (by omega), ← hadd i 3 hi,
    ← hadd j 1 (by omega), ← hadd j 2 hj]
  rfl

/-- One round: the characters at `i` become three bytes at `j`, and nothing from `i + 4` on
is overwritten. -/
theorem decodeStep_eq {code tl : Bytes} {i j : Nat} {c0 c1 c2 c3 : UInt8} {t0 t1 t2 t3 : Nat}
    (hi : i + 4 ≤ 2147483647) (hji : j ≤ i) (hdrop : code.drop i = c0 :: c1 :: c2 :: c3 :: tl)
    (h0 : table[c0.toNat]? = some t0) (h1 : table[c1.toNat]? = some t1)
    (h2 : table[c2.toNat]? = some t2) (h3 : table[c3.toNat]? = some t3)
    (l0 : t0 < 64) (l1 : t1 < 64) (l2 : t2 < 64) (l3 : t3 < 64) :
    ∃ code', decodeStep code i j = some code' ∧ code'.drop (i + 4) = tl ∧
      code'.take (j + 3) =
        code.take j ++ [joinByte0 t0 t1, joinByte1 t1 t2, joinByte2 t2 t3] := by
  have hlen : i + 4 ≤ code.length := by
    have h := congrArg List.length hdrop
    simp only [List.length_drop, List.length_cons] at h
    omega
  have d1 : code.drop (i + 1) = c1 :: c2 :: c3 :: tl := by
    rw [List.drop_add_one_eq_tail_drop, hdrop]
    rfl
  have d2 : code.drop (i + 2) = c2 :: c3 :: tl := by
    rw [List.drop_add_one_eq_tail_drop, d1]
    rfl
  have d3 : code.drop (i + 3) = c3 :: tl := by
    rw [List.drop_add_one_eq_tail_drop, d2]
    rfl
  have d4 : code.drop (i + 4) = tl := by
    rw [List.drop_add_one_eq_tail_drop, d3]
    rfl
  obtain ⟨codeA, defA⟩ : ∃ c, c = code.set j (joinByte0 t0 t1) := ⟨_, rfl⟩
  obtain ⟨codeB, defB⟩ : ∃ c, c = codeA.set (j + 1) (joinByte1 t1 t2) := ⟨_, rfl⟩
  have hA : codeA.length = code.length := by rw [defA, List.length_set]
  have hB : codeB.length = code.length := by rw [defB, List.length_set, hA]
  -- the stores of this round lie in front of the characters that are still to be read
  have behindA : ∀ k, j < k → codeA.drop k = code.drop k := by
    intro k hk
    rw [defA, drop_set_of_lt _ hk]
  have behindB : ∀ k, j + 1 < k → codeB.drop k = code.drop k := by
    intro k hk
    rw [defB, drop_set_of_lt _ hk, behindA k (by omega)]
  refine ⟨codeB.set (j + 2) (joinByte2 t2 t3), ?_, ?_, ?_⟩
  · have r1 := lookup_of_drop ((behindA (i + 1) (by omega)).trans d1) h1 l1
    have r2 := lookup_of_drop ((behindA (i + 2) (by omega)).trans d2) h2 l2
    have r2' := lookup_of_drop ((behindB (i + 2) (by omega)).trans d2) h2 l2
    have r3 := lookup_of_drop ((behindB (i + 3) (by omega)).trans d3) h3 l3
    have sA : store code j (joinByte0 t0 t1) = some codeA := by
      rw [defA, store_nat _ (by omega)]
    have sB : store codeA (j + 1 : Nat) (joinByte1 t1 t2) = some codeB := by
      rw [defB, store_nat _ (by omega)]
    rw [decodeStep_nat code (by omega) (by omega)]
    simp only [Option.bind_eq_bind, lookup_of_drop hdrop h0 l0, lookup_of_drop d1 h1 l1,
      Option.bind_some, sA, sB, r1, r2, r2', r3]
    exact store_nat _ (by omega)
  · rw [drop_set_of_lt _ (by omega), behindB _ (by omega), d4]
  · rw [take_set_succ _ (by omega), defB, take_set_succ _ (by omega), defA,
      take_set_succ _ (by omega)]
    simp only [List.append_assoc, List.cons_append, List.nil_append]

theorem decodeLoop_done {code : Bytes} {len i j : Int} (fuel : Nat) (h : len ≤ i) :
    decodeLoop len fuel code i j = some code := by
  cases fuel with
  | zero => rw [decodeLoop, if_neg (by omega)]
  | succ fuel => rw [decodeLoop, if_neg (by omega)]

/-- One round of the loop, once the round's stores are known. -/
theorem decodeLoop_succ {code code' : Bytes} {len : Int} {i j : Nat} (fuel : Nat)
    (hlen : (i : Int) + 2 < len) (hi : i + 4 ≤ 2147483647) (hji : j ≤ i)
    (hstep : decodeStep code i j = some code') :
    decodeLoop len (fuel + 1) code i j =
      decodeLoop len fuel code' (i + 4 : Nat) (j + 3 : Nat) := by
  have hij : toInt32 ((i : Int) + 4) = (i + 4 : Nat) ∧ toInt32 ((j : Int) + 3) = (j + 3 : Nat) :=
    ⟨toInt32_eq_nat rfl hi, toInt32_eq_nat rfl (by omega)⟩
  rw [decodeLoop, if_pos (by omega), hstep, hij.1, hij.2]
  rfl

theorem take_length_of_drop {code tl : Bytes} {i j : Nat} {c : UInt8} (h : code.drop i = c :: tl)
    (hji : j ≤ i) : (code.take j).length = j := by
  have hlt : i < code.length := by
    have hl := congrArg List.length h
    simp only [List.length_drop, List.length_cons] at hl
    omega
  rw [List.length_take, Nat.min_eq_left (by omega)]

/-- A shorter prefix of a known prefix. -/
theorem take_of_take {code pre tl : Bytes} {j k m : Nat} (h : code.take (j + m) = pre ++ tl)
    (hpre : pre.length = j) (hk : k ≤ m) : code.take (j + k) = pre ++ tl.take k := by
  calc code.take (j + k) = (code.take (j + m)).take (j + k) := by
        rw [List.take_take, Nat.min_eq_left (by omega)]
    _ = (pre ++ tl).take (pre.length + k) := by rw [h, hpre]
    _ = pre ++ tl.take k := List.take_length_add_append k

/-- The loop, started at `i` and `j` on the text of `inp`, puts `inp` behind the bytes in
front of `j`. -/
theorem decodeLoop_eq (inp rest : Bytes) : ∀ (fuel : Nat) (code : Bytes) (i j : Nat),
    code.drop i = encodeText inp ++ 0 :: rest → j ≤ i →
    i + (encodeText inp).length ≤ 2147483647 → inp.length ≤ fuel →
    ∃ code', decodeLoop ((i + (encodeText inp).length : Nat) : Int) fuel code i j = some code' ∧
      code'.take (j + inp.length) = code.take j ++ inp := by
  induction inp using encodeText.induct with
  | case1 =>
    intro fuel code i j hdrop hji hi hfuel
    refine ⟨code, decodeLoop_done fuel ?_, ?_⟩
    · simp [encodeText]
    · simp
  | case2 b0 =>
    intro fuel code i j hdrop hji hi hfuel
    obtain ⟨fuel, rfl⟩ : ∃ n, fuel = n + 1 := Nat.exists_eq_add_one.2 hfuel
    rw [encodeText_length] at hi ⊢
    simp only [List.length_cons, List.length_nil] at hi ⊢
    rw [encodeText] at hdrop
    have hj : (code.take j).length = j := take_length_of_drop hdrop hji
    obtain ⟨code', hstep, -, htake⟩ := decodeStep_eq (by omega) hji hdrop
      (table_encChar (sextet0_lt b0)) (table_encChar (sextet1_lt b0 0)) table_pad table_pad
      (sextet0_lt b0) (sextet1_lt b0 0) (by decide) (by decide)
    refine ⟨code', ?_, ?_⟩
    · rw [decodeLoop_succ fuel (by omega) (by omega) hji hstep]
      exact decodeLoop_done fuel (by omega)
    · rw [take_of_take htake hj (by decide), joinByte0_sextets]
      rfl
  | case3 b0 b1 =>
    intro fuel code i j hdrop hji hi hfuel
    obtain ⟨fuel, rfl⟩ : ∃ n, fuel = n + 1 :=
      Nat.exists_eq_add_one.2 (Nat.lt_of_lt_of_le (by simp) hfuel)
    rw [encodeText_length] at hi ⊢
    simp only [List.length_cons, List.length_nil] at hi ⊢
    rw [encodeText] at hdrop
    have hj : (code.take j).length = j := take_length_of_drop hdrop hji
    obtain ⟨code', hstep, -, htake⟩ := decodeStep_eq (by omega) hji hdrop
      (table_encChar (sextet0_lt b0)) (table_encChar (sextet1_lt b0 b1))
      (table_encChar (sextet2_lt b1 0)) table_pad
      (sextet0_lt b0) (sextet1_lt b0 b1) (sextet2_lt b1 0) (by decide)
    refine ⟨code', ?_, ?_⟩
    · rw [decodeLoop_succ fuel (by omega) (by omega) hji hstep]
      exact decodeLoop_done fuel (by omega)
    · rw [take_of_take htake hj (by decide), joinByte0_sextets, joinByte1_sextets]
      rfl
  | case4 b0 b1 b2 tl ih =>
    intro fuel code i j hdrop hji hi hfuel
    obtain ⟨fuel, rfl⟩ : ∃ n, fuel = n + 1 :=
      Nat.exists_eq_add_one.2 (Nat.lt_of_lt_of_le (by simp) hfuel)
    have hlen : (encodeText (b0 :: b1 :: b2 :: tl)).length = 4 + (encodeText tl).length := by
      rw [encodeText, List.length_append]
      rfl
    rw [hlen] at hi ⊢
    rw [encodeText, group] at hdrop
    simp only [List.length_cons, List.cons_append, List.nil_append] at hdrop hfuel ⊢
    have hj : (code.take j).length = j := take_length_of_drop hdrop hji
    obtain ⟨mid, hstep, hrest, htake⟩ := decodeStep_eq (by omega) hji hdrop
      (table_encChar (sextet0_lt b0)) (table_encChar (sextet1_lt b0 b1))
      (table_encChar (sextet2_lt b1 b2)) (table_encChar (sextet3_lt b2))
      (sextet0_lt b0) (sextet1_lt b0 b1) (sextet2_lt b1 b2) (sextet3_lt b2)
    rw [joinByte0_sextets, joinByte1_sextets, joinByte2_sextets] at htake
    obtain ⟨code', hloop, hfinal⟩ :=
      ih fuel mid (i + 4) (j + 3) hrest (by omega) (by omega) (by omega)
    refine ⟨code', ?_, ?_⟩
    · rw [decodeLoop_succ fuel (by omega) (by omega) hji hstep, ← Nat.add_assoc]
      exact hloop
    · rw [show j + (tl.length + 1 + 1 + 1) = j + 3 + tl.length by omega, hfinal, htake]
      simp only [List.append_assoc, List.cons_append, List.nil_append]

/-! ### Both functions -/

/-- `base64_encode` writes the text and returns its length, as an `int`. -/
theorem base64Encode_eq (inp : Bytes) :
    base64Encode inp inp.length =
      some (encodeText inp, toInt32 ((4 * ((inp.length + 2) / 3) : Nat) : Int)) := by
  rw [base64Encode, if_neg (by omega), Int.toNat_natCast, encodeLoop_eq, ← encodeText_length]
  rfl

/-- `base64_decode` on a text whose length is an `int`. -/
theorem base64Decode_encodeText (inp rest : Bytes)
    (hlen : (encodeText inp).length ≤ 2147483647) :
    ∃ buf : Bytes, base64Decode (encodeText inp ++ 0 :: rest) = some (buf, (inp.length : Int)) ∧
      buf.take inp.length = inp := by
  have hnul := zero_notMem_encodeText inp
  have hin : inp.length ≤ (encodeText inp).length := by
    rw [encodeText_length]
    omega
  obtain ⟨buf, hloop, htake⟩ := decodeLoop_eq inp rest (encodeText inp ++ 0 :: rest).length
    (encodeText inp ++ 0 :: rest) 0 0 rfl (Nat.le_refl 0) (by omega)
    (by rw [List.length_append]; omega)
  refine ⟨buf, ?_, by simpa using htake⟩
  rw [Nat.zero_add] at hloop
  simp only [base64Decode, strlen_append_nul rest hnul, cstr_append_nul rest hnul,
    decodedLength_encodeText, Option.bind_eq_bind, Option.bind_some]
  rw [show (0 : Int) = ((0 : Nat) : Int) by rfl, hloop, toInt32_eq_nat rfl (by omega)]
  rfl

/-- What a round trip of `inp` does: the encoder's text and result, and the decoder run on that
text, a NUL and whatever stands behind them. -/
structure RoundTrips (inp : Bytes) (text : Bytes) : Prop where
  encoded : base64Encode inp inp.length = some (text, ((4 * ((inp.length + 2) / 3) : Nat) : Int))
  decoded : ∀ rest : Bytes, ∃ buf : Bytes,
    base64Decode (text ++ 0 :: rest) = some (buf, (inp.length : Int)) ∧ buf.take inp.length = inp

theorem base64_round_trip (inp : Bytes) (hlen : 4 * ((inp.length + 2) / 3) ≤ 2147483647) :
    ∃ text, RoundTrips inp text := by
  refine ⟨encodeText inp, ?_, ?_⟩
  · rw [base64Encode_eq, toInt32_eq_nat rfl hlen]
  · intro rest
    rw [← encodeText_length] at hlen
    exact base64Decode_encodeText inp rest hlen

theorem base64_round_trip_two_bytes : ∃ text, RoundTrips [0xFF, 0x01] text :=
  base64_round_trip [0xFF, 0x01] (by decide)

/-- The largest `inLen` gives a text whose length is no `int`. -/
theorem base64_round_trip_overflow :
    ¬ ∃ text, RoundTrips (List.replicate 2147483647 0) text := by
  rintro ⟨text, h, -⟩
  rw [base64Encode_eq, List.length_replicate] at h
  have hret : toInt32 ((4 * ((2147483647 + 2) / 3) : Nat) : Int) =
      ((4 * ((2147483647 + 2) / 3) : Nat) : Int) := by
    simp only [Option.some.injEq, Prod.mk.injEq] at h
    exact h.2
  have hin := toInt32_inInt ((4 * ((2147483647 + 2) / 3) : Nat) : Int)
  rw [hret, InInt] at hin
  omega

end Base64
end CFunction
