import CFunction.Encode.Proofs.Base64Decode

/-!
# The encoder undoes the decoder on canonical text

A group of canonical text is the group of the bytes that the decoder makes of it: the bits that
a pad cuts off are zero. So canonical text is the text of some byte string, and the round trip
of that byte string is the round trip of the text.
-/

namespace CFunction
namespace Base64

open CString

/-- Alphabet characters in groups of four, the last of which may be `XY==` or `XYZ=` with nothing
but zeros in the bits that are cut off. -/
def Canonical (s : Bytes) : Prop :=
  ∃ body last, s = body ++ last ∧ 4 ∣ body.length ∧ (∀ c ∈ body, ∃ k < 64, c = alphabet k) ∧
    (last = [] ∨
      (∃ x y, x < 64 ∧ y < 64 ∧ y % 16 = 0 ∧
        last = [alphabet x, alphabet y, ascii '=', ascii '=']) ∨
      ∃ x y z, x < 64 ∧ y < 64 ∧ z < 64 ∧ z % 4 = 0 ∧
        last = [alphabet x, alphabet y, alphabet z, ascii '='])

variable {s0 s1 s2 s3 : Nat}

theorem toNat_joinByte0 (h0 : s0 < 64) (h1 : s1 < 64) :
    (joinByte0 s0 s1).toNat = s0 * 4 + s1 / 16 := by
  rw [joinByte0, Nat.shiftRight_eq_div_pow, shiftLeft_or _ (by omega), UInt8.toNat_ofNat']
  omega

theorem toNat_joinByte1 (h2 : s2 < 64) :
    (joinByte1 s1 s2).toNat = s1 % 16 * 16 + s2 / 4 := by
  rw [joinByte1, Nat.shiftRight_eq_div_pow, shiftLeft_or _ (by omega), UInt8.toNat_ofNat']
  omega

theorem toNat_joinByte2 (h3 : s3 < 64) : (joinByte2 s2 s3).toNat = s2 % 4 * 64 + s3 := by
  rw [joinByte2, shiftLeft_or _ (by omega), UInt8.toNat_ofNat']
  omega

theorem sextet0_join (h0 : s0 < 64) (h1 : s1 < 64) : sextet0 (joinByte0 s0 s1) = s0 := by
  rw [sextet0_eq, toNat_joinByte0 h0 h1]
  omega

theorem sextet1_join (h0 : s0 < 64) (h1 : s1 < 64) (h2 : s2 < 64) :
    sextet1 (joinByte0 s0 s1) (joinByte1 s1 s2) = s1 := by
  rw [sextet1_eq, toNat_joinByte0 h0 h1, toNat_joinByte1 h2]
  omega

theorem sextet2_join (h2 : s2 < 64) (h3 : s3 < 64) :
    sextet2 (joinByte1 s1 s2) (joinByte2 s2 s3) = s2 := by
  rw [sextet2_eq, toNat_joinByte1 h2, toNat_joinByte2 h3]
  omega

theorem sextet3_join (h3 : s3 < 64) : sextet3 (joinByte2 s2 s3) = s3 := by
  rw [sextet3_eq, toNat_joinByte2 h3]
  omega

/-- A byte that is missing counts as 0, which is what the cut off bits say. -/
theorem sextet1_join_zero (h0 : s0 < 64) (h1 : s1 < 64) (cut : s1 % 16 = 0) :
    sextet1 (joinByte0 s0 s1) 0 = s1 := by
  rw [sextet1_eq, toNat_joinByte0 h0 h1, UInt8.toNat_zero]
  omega

theorem sextet2_join_zero (h2 : s2 < 64) (cut : s2 % 4 = 0) :
    sextet2 (joinByte1 s1 s2) 0 = s2 := by
  rw [sextet2_eq, toNat_joinByte1 h2, UInt8.toNat_zero]
  omega

/-- The last group of canonical text is the text of at most two bytes. -/
theorem exists_encodeText_last {last : Bytes}
    (h : last = [] ∨
      (∃ x y, x < 64 ∧ y < 64 ∧ y % 16 = 0 ∧
        last = [alphabet x, alphabet y, ascii '=', ascii '=']) ∨
      ∃ x y z, x < 64 ∧ y < 64 ∧ z < 64 ∧ z % 4 = 0 ∧
        last = [alphabet x, alphabet y, alphabet z, ascii '=']) :
    ∃ inp, encodeText inp = last := by
  rcases h with rfl | ⟨x, y, hx, hy, cut, rfl⟩ | ⟨x, y, z, hx, hy, hz, cut, rfl⟩
  · exact ⟨[], rfl⟩
  · refine ⟨[joinByte0 x y], ?_⟩
    rw [encodeText, sextet0_join hx hy, sextet1_join_zero hx hy cut, encChar_eq_alphabet hx,
      encChar_eq_alphabet hy]
  · refine ⟨[joinByte0 x y, joinByte1 y z], ?_⟩
    rw [encodeText, sextet0_join hx hy, sextet1_join hx hy hz, sextet2_join_zero hz cut,
      encChar_eq_alphabet hx, encChar_eq_alphabet hy, encChar_eq_alphabet hz]

/-- Canonical text is the text of some byte string, by induction on the number of its whole
groups. -/
theorem exists_encodeText {last inp : Bytes} (hlast : encodeText inp = last) :
    ∀ (n : Nat) (body : Bytes), body.length = 4 * n → (∀ c ∈ body, ∃ k < 64, c = alphabet k) →
      ∃ inp, encodeText inp = body ++ last := by
  intro n
  induction n with
  | zero =>
    intro body hlen _
    obtain rfl : body = [] := List.eq_nil_of_length_eq_zero hlen
    exact ⟨inp, hlast⟩
  | succ n ih =>
    intro body hlen hbody
    have hfour : 0 + 4 ≤ body.length := by omega
    obtain ⟨c0, c1, c2, c3, hdrop⟩ := drop_four hfour
    rw [List.drop_zero, Nat.zero_add] at hdrop
    rw [hdrop] at hbody
    obtain ⟨k0, h0, e0⟩ := hbody c0 (by simp)
    obtain ⟨k1, h1, e1⟩ := hbody c1 (by simp)
    obtain ⟨k2, h2, e2⟩ := hbody c2 (by simp)
    obtain ⟨k3, h3, e3⟩ := hbody c3 (by simp)
    obtain ⟨rest, hrest⟩ := ih (body.drop 4) (by rw [List.length_drop, hlen]; omega)
      fun c hc => hbody c (by simp [hc])
    refine ⟨joinByte0 k0 k1 :: joinByte1 k1 k2 :: joinByte2 k2 k3 :: rest, ?_⟩
    rw [encodeText, group, sextet0_join h0 h1, sextet1_join h0 h1 h2, sextet2_join h2 h3,
      sextet3_join h3, encChar_eq_alphabet h0, encChar_eq_alphabet h1, encChar_eq_alphabet h2,
      encChar_eq_alphabet h3, ← e0, ← e1, ← e2, ← e3, hrest, hdrop]
    rfl

theorem Canonical.exists_encodeText {s : Bytes} (canonical : Canonical s) :
    ∃ inp, encodeText inp = s := by
  obtain ⟨body, last, rfl, ⟨n, hn⟩, hbody, hlast⟩ := canonical
  obtain ⟨inp, hinp⟩ := exists_encodeText_last hlast
  exact Base64.exists_encodeText hinp n body hn hbody

/-- The bytes that `base64_decode` makes of a text. -/
def decoded (s : Bytes) : Option Bytes :=
  (base64Decode (s ++ [0])).map fun (buf, r) => buf.take r.toNat

/-- Decoding `s` and encoding the bytes gives `s` again, so `s` is the text of some bytes, and no
other canonical text is decoded to the same bytes. -/
structure EncodesBack (s : Bytes) : Prop where
  again : ∀ rest : Bytes, ∃ buf r, base64Decode (s ++ 0 :: rest) = some (buf, r) ∧ 0 ≤ r ∧
    base64Encode (buf.take r.toNat) r = some (s, (s.length : Int))
  reached : ∃ inp : Bytes, base64Encode inp inp.length = some (s, (s.length : Int))
  injective : ∀ s', Canonical s' → decoded s' = decoded s → s' = s

/-- On text that is too long the decoder has no result. -/
theorem base64Decode_long {s : Bytes} (string : 0 ∉ s) (long : 2147483647 ≤ s.length) :
    base64Decode (s ++ [0]) = none := by
  have hlong : (2147483647 : Int) ≤ (s.length : Int) := by omega
  have hwrap := decodeLoop_wraps hlong (s.length + 1) (s ++ [0]) 0 (0 : Nat) (by omega)
  rw [Nat.mul_zero] at hwrap
  rw [base64Decode_eq string, hwrap]
  rfl

theorem decoded_encodeText {inp : Bytes} (int : (encodeText inp).length ≤ 2147483647) :
    decoded (encodeText inp) = some inp := by
  obtain ⟨buf, hdecode, htake⟩ := base64Decode_encodeText inp [] int
  rw [decoded, hdecode, Option.map_some]
  exact congrArg some htake

/-- `base64_encode` undoes `base64_decode` on every canonical text whose length is an `int`. -/
theorem base64_encode_decode {s : Bytes} (canonical : Canonical s)
    (int : s.length ≤ 2147483647) : EncodesBack s := by
  obtain ⟨inp, rfl⟩ := canonical.exists_encodeText
  have hlen := encodeText_length inp
  have hencode : base64Encode inp inp.length =
      some (encodeText inp, ((encodeText inp).length : Int)) := by
    rw [base64Encode_eq, ← hlen, toInt32_eq_nat rfl int]
  refine ⟨fun rest => ?_, ⟨inp, hencode⟩, fun s' canonical' same => ?_⟩
  · obtain ⟨buf, hdecode, htake⟩ := base64Decode_encodeText inp rest int
    exact ⟨buf, _, hdecode, by omega, by rw [Int.toNat_natCast, htake, hencode]⟩
  · obtain ⟨inp', rfl⟩ := canonical'.exists_encodeText
    rw [decoded_encodeText int] at same
    by_cases int' : (encodeText inp').length ≤ 2147483647
    · rw [decoded_encodeText int'] at same
      rw [Option.some.inj same]
    · have hnone := base64Decode_long (zero_notMem_encodeText inp') (by omega)
      rw [decoded, hnone] at same
      exact absurd same (by simp)

theorem base64_encode_decode_one_byte : EncodesBack [81, 81, 61, 61] := by
  refine base64_encode_decode ⟨[], _, rfl, by decide, by simp, .inr (.inl ⟨16, 16, ?_⟩)⟩
    (by decide)
  decide

/-- A text of `2^31` characters has no result. -/
theorem base64_encode_decode_long : ¬ ∀ s, Canonical s → EncodesBack s := by
  intro h
  obtain ⟨s, hs⟩ : ∃ s : Bytes, s = List.replicate 2147483648 65 := ⟨_, rfl⟩
  have hmem : ∀ c ∈ s, c = 65 := by
    rw [hs]
    exact fun c hc => List.eq_of_mem_replicate hc
  have hlen : s.length = 2147483648 := by rw [hs, List.length_replicate]
  have canonical : Canonical s := by
    refine ⟨s, [], (List.append_nil s).symm, by rw [hlen]; decide, fun c hc => ?_, .inl rfl⟩
    exact ⟨0, by decide, hmem c hc⟩
  obtain ⟨buf, r, hdecode, -⟩ := (h s canonical).again []
  have hnone := base64Decode_long (s := s) (fun h0 => absurd (hmem 0 h0) (by decide)) (by omega)
  exact absurd (hnone.symm.trans hdecode) (by simp)

end Base64
end CFunction
