import CFunction.Encode.Proofs.Base64RoundTrip
import CFunction.Misc.Bits

/-!
# The encoder against the bit string

Read as one bit string, most significant bit first, three bytes are four groups of six bits, so
the characters of a text are the alphabet's characters for its groups, and the pads make up for
the bytes that are missing in the last group.
-/

namespace CFunction
namespace Base64

open Bits CString

/-- `A-Z`, `a-z`, `0-9`, `+` and `/`. -/
def alphabet (k : Nat) : UInt8 :=
  if k < 26 then UInt8.ofNat (65 + k)
  else if k < 52 then UInt8.ofNat (97 + (k - 26))
  else if k < 62 then UInt8.ofNat (48 + (k - 52))
  else if k = 62 then ascii '+'
  else ascii '/'

/-- The bits of a byte string. -/
def byteBits (inp : Bytes) : List Bool := inp.flatMap fun b => bitsOf 8 b.toNat

/-- The 6-bit groups of a byte string, the last one completed with zero bits. -/
def sextets (inp : Bytes) : List (List Bool) := groups 6 (zeroPad 6 (byteBits inp))

theorem encChar_eq_alphabet {k : Nat} (h : k < 64) : encChar k = alphabet k := by
  have hall : ∀ k : Fin 64, encChar k = alphabet k := by decide
  exact hall ⟨k, h⟩

/-! ### The bits of a group -/

def bits0 (b0 : UInt8) : List Bool := bitsOf 6 (b0.toNat / 2 ^ 2)
def bits1 (b0 b1 : UInt8) : List Bool := bitsOf 2 b0.toNat ++ bitsOf 4 (b1.toNat / 2 ^ 4)
def bits2 (b1 b2 : UInt8) : List Bool := bitsOf 4 b1.toNat ++ bitsOf 2 (b2.toNat / 2 ^ 6)
def bits3 (b2 : UInt8) : List Bool := bitsOf 6 b2.toNat

theorem value_bits0 (b0 : UInt8) : value (bits0 b0) = sextet0 b0 := by
  have h0 := b0.toNat_lt
  rw [bits0, value_bitsOf, sextet0_eq]
  omega

theorem value_bits1 (b0 b1 : UInt8) : value (bits1 b0 b1) = sextet1 b0 b1 := by
  have h1 := b1.toNat_lt
  rw [bits1, value_append, value_bitsOf, value_bitsOf, length_bitsOf, sextet1_eq]
  omega

theorem value_bits2 (b1 b2 : UInt8) : value (bits2 b1 b2) = sextet2 b1 b2 := by
  have h2 := b2.toNat_lt
  rw [bits2, value_append, value_bitsOf, value_bitsOf, length_bitsOf, sextet2_eq]
  omega

theorem value_bits3 (b2 : UInt8) : value (bits3 b2) = sextet3 b2 := by
  rw [bits3, value_bitsOf, sextet3_eq]
  rfl

/-- The bits of one byte, cut where the encoder cuts them. -/
theorem bitsOf_eight (b : UInt8) :
    bitsOf 8 b.toNat = bits0 b ++ bitsOf 2 b.toNat ∧
      bitsOf 8 b.toNat = bitsOf 4 (b.toNat / 2 ^ 4) ++ bitsOf 4 b.toNat ∧
      bitsOf 8 b.toNat = bitsOf 2 (b.toNat / 2 ^ 6) ++ bits3 b :=
  ⟨bitsOf_add 6 2 _, bitsOf_add 4 4 _, bitsOf_add 2 6 _⟩

/-- The groups as the encoder forms them: a missing byte counts as 0. -/
def groupBits : Bytes → List (List Bool)
  | [] => []
  | [b0] => [bits0 b0, bits1 b0 0]
  | [b0, b1] => [bits0 b0, bits1 b0 b1, bits2 b1 0]
  | b0 :: b1 :: b2 :: rest =>
    [bits0 b0, bits1 b0 b1, bits2 b1 b2, bits3 b2] ++ groupBits rest

theorem length_of_mem_groupBits (inp : Bytes) : ∀ g ∈ groupBits inp, g.length = 6 := by
  induction inp using groupBits.induct with
  | case1 => simp [groupBits]
  | case2 => simp [groupBits, bits0, bits1]
  | case3 => simp [groupBits, bits0, bits1, bits2]
  | case4 b0 b1 b2 rest ih =>
    intro g hg
    rcases List.mem_append.1 hg with hg | hg
    · simp only [List.mem_cons, List.not_mem_nil, or_false] at hg
      rcases hg with rfl | rfl | rfl | rfl <;> simp [bits0, bits1, bits2, bits3]
    · exact ih g hg

theorem zeroPad_byteBits (inp : Bytes) : zeroPad 6 (byteBits inp) = (groupBits inp).flatten := by
  induction inp using groupBits.induct with
  | case1 => rfl
  | case2 b0 =>
    have hbits : byteBits [b0] = bits0 b0 ++ bitsOf 2 b0.toNat := by
      rw [byteBits, List.flatMap_singleton, (bitsOf_eight b0).1]
    rw [hbits, zeroPad]
    simp [groupBits, bits0, bits1, bitsOf_zero]
  | case3 b0 b1 =>
    have hbits : byteBits [b0, b1] = bits0 b0 ++ bits1 b0 b1 ++ bitsOf 4 b1.toNat := by
      simp only [byteBits, List.flatMap_cons, List.flatMap_nil, List.append_nil]
      rw [(bitsOf_eight b0).1, (bitsOf_eight b1).2.1, bits1]
      simp only [List.append_assoc]
    rw [hbits, zeroPad]
    simp [groupBits, bits0, bits1, bits2, bitsOf_zero]
  | case4 b0 b1 b2 rest ih =>
    have hbits : byteBits (b0 :: b1 :: b2 :: rest) =
        (bits0 b0 ++ bits1 b0 b1 ++ bits2 b1 b2 ++ bits3 b2) ++ byteBits rest := by
      simp only [byteBits, List.flatMap_cons]
      rw [(bitsOf_eight b0).1, (bitsOf_eight b1).2.1, (bitsOf_eight b2).2.2, bits1, bits2]
      simp only [List.append_assoc]
    rw [hbits, zeroPad_append (by simp [bits0, bits1, bits2, bits3]), ih, groupBits]
    simp only [List.flatten_append, List.flatten_cons, List.flatten_nil, List.append_nil,
      List.append_assoc]

theorem sextets_eq (inp : Bytes) : sextets inp = groupBits inp := by
  rw [sextets, zeroPad_byteBits, groups_flatten (by decide) _ (length_of_mem_groupBits inp)]

theorem encodeText_eq_sextets (inp : Bytes) :
    encodeText inp = (sextets inp).map (fun g => alphabet (value g)) ++
      List.replicate ((3 - inp.length % 3) % 3) (ascii '=') := by
  rw [sextets_eq]
  induction inp using encodeText.induct with
  | case1 => rfl
  | case2 b0 =>
    simp only [groupBits, List.map_cons, List.map_nil, value_bits0, value_bits1, encodeText,
      ← encChar_eq_alphabet (sextet0_lt b0), ← encChar_eq_alphabet (sextet1_lt b0 0)]
    rfl
  | case3 b0 b1 =>
    simp only [groupBits, List.map_cons, List.map_nil, value_bits0, value_bits1, value_bits2,
      encodeText, ← encChar_eq_alphabet (sextet0_lt b0), ← encChar_eq_alphabet (sextet1_lt b0 b1),
      ← encChar_eq_alphabet (sextet2_lt b1 0)]
    rfl
  | case4 b0 b1 b2 rest ih =>
    have hpads : (b0 :: b1 :: b2 :: rest).length % 3 = rest.length % 3 := by
      simp only [List.length_cons]
      omega
    simp only [groupBits, List.map_append, List.map_cons, List.map_nil, value_bits0, value_bits1,
      value_bits2, value_bits3, encodeText, group, hpads, ih, List.append_assoc,
      ← encChar_eq_alphabet (sextet0_lt b0), ← encChar_eq_alphabet (sextet1_lt b0 b1),
      ← encChar_eq_alphabet (sextet2_lt b1 b2), ← encChar_eq_alphabet (sextet3_lt b2)]

theorem length_groupBits (inp : Bytes) : (groupBits inp).length = (8 * inp.length + 5) / 6 := by
  induction inp using groupBits.induct with
  | case1 => rfl
  | case2 => simp [groupBits]
  | case3 => simp [groupBits]
  | case4 b0 b1 b2 rest ih =>
    rw [groupBits, List.length_append, ih]
    simp only [List.length_cons, List.length_nil]
    omega

/-- Whole groups in front are encoded on their own. -/
theorem encodeText_append (a b : Bytes) (whole : 3 ∣ a.length) :
    encodeText (a ++ b) = encodeText a ++ encodeText b := by
  induction a using encodeText.induct with
  | case1 => rfl
  | case2 => exact absurd whole (by simp)
  | case3 => exact absurd whole (by simp)
  | case4 b0 b1 b2 rest ih =>
    have hrest : 3 ∣ rest.length := by
      simp only [List.length_cons] at whole
      omega
    simp only [List.cons_append, encodeText, ih hrest, List.append_assoc]

/-- The text that `base64_encode` writes for a byte string. -/
def written (inp : Bytes) : Option Bytes := (base64Encode inp inp.length).map Prod.fst

/-- `base64_encode` writes `text` for `inp`, and that is standard base64. -/
structure IsBase64 (inp text : Bytes) : Prop where
  written : written inp = some text
  /-- The first `⌈8n/6⌉` characters are those of the 6-bit groups. -/
  chars : text.take ((8 * inp.length + 5) / 6) = (sextets inp).map fun g => alphabet (value g)
  pads : text.drop ((8 * inp.length + 5) / 6) =
    List.replicate ((3 - inp.length % 3) % 3) (ascii '=')
  /-- Whole groups in front are encoded on their own. -/
  concat : ∀ b text', 3 ∣ inp.length → Base64.written b = some text' →
    Base64.written (inp ++ b) = some (text ++ text')

theorem written_eq (inp : Bytes) : written inp = some (encodeText inp) := by
  rw [written, base64Encode_eq]
  rfl

/-- `base64_encode` is standard base64 on every byte string. -/
theorem base64Encode_isBase64 (inp : Bytes) : ∃ text, IsBase64 inp text := by
  have hlen : ((sextets inp).map fun g => alphabet (value g)).length =
      (8 * inp.length + 5) / 6 := by
    rw [List.length_map, sextets_eq, length_groupBits]
  refine ⟨encodeText inp, written_eq inp, ?_, ?_, ?_⟩
  · rw [encodeText_eq_sextets, List.take_left' hlen]
  · rw [encodeText_eq_sextets, List.drop_left' hlen]
  · intro b text' whole hb
    rw [written_eq] at hb ⊢
    rw [encodeText_append inp b whole, Option.some.inj hb]

end Base64
end CFunction
