import CFunction.Json.Proofs.StringLiteral
import CFunction.Json.Proofs.PrintBuffer

/-!
# String literals are read as what they stand for

A literal is a sequence of characters that stand for themselves, short escapes, and UTF-16
escapes with the code of a character or with a surrogate pair. `parse_string` gives the bytes of
the characters in UTF-8, as far as the first NUL.
-/

namespace CFunction
namespace Json

open CString

/-! ### UTF-8 -/

theorem continuation_byte (n : Nat) : (n ||| 0x80) &&& 0xBF = n % 64 + 0x80 := by
  have hmask : (n ||| 0x80) &&& (63 ||| 0x80) = (n &&& 63) ||| 0x80 := by
    apply Nat.eq_of_testBit_eq
    intro i
    simp only [Nat.testBit_or, Nat.testBit_and]
    cases n.testBit i <;> cases (63 : Nat).testBit i <;> cases (0x80 : Nat).testBit i <;> rfl
  have hsum : 0x80 + n % 64 = 0x80 ||| n % 64 :=
    Nat.two_pow_add_eq_or_of_lt (show n % 64 < 2 ^ 7 by omega) 1
  calc (n ||| 0x80) &&& 0xBF = (n &&& 63) ||| 0x80 := hmask
    _ = n % 64 ||| 0x80 := by rw [Nat.and_two_pow_sub_one_eq_mod n 6]
    _ = n % 64 + 0x80 := by rw [Nat.or_comm, ← hsum, Nat.add_comm]

theorem encodeTail_eq (n codepoint : Nat) (tail : Bytes) :
    encodeTail (n + 1) codepoint tail =
      encodeTail n (codepoint / 64) (UInt8.ofNat (codepoint % 64 + 0x80) :: tail) := by
  rw [encodeTail, continuation_byte, Nat.shiftRight_eq_div_pow]

theorem encode_two (v mark : Nat) :
    encodeUtf8.encode v 2 mark =
      [UInt8.ofNat ((v / 64 ||| mark) &&& 0xFF), UInt8.ofNat (v % 64 + 0x80)] := by
  rw [encodeUtf8.encode, show 2 - 1 = 0 + 1 from rfl, encodeTail_eq]
  rfl

theorem encode_three (v mark : Nat) :
    encodeUtf8.encode v 3 mark =
      [UInt8.ofNat ((v / 4096 ||| mark) &&& 0xFF), UInt8.ofNat (v / 64 % 64 + 0x80),
        UInt8.ofNat (v % 64 + 0x80)] := by
  rw [encodeUtf8.encode, show 3 - 1 = 1 + 1 from rfl, encodeTail_eq, encodeTail_eq,
    Nat.div_div_eq_div_mul]
  rfl

theorem encode_four (v mark : Nat) :
    encodeUtf8.encode v 4 mark =
      [UInt8.ofNat ((v / 262144 ||| mark) &&& 0xFF), UInt8.ofNat (v / 4096 % 64 + 0x80),
        UInt8.ofNat (v / 64 % 64 + 0x80), UInt8.ofNat (v % 64 + 0x80)] := by
  have hsecond : v / 64 / 64 = v / 4096 := Nat.div_div_eq_div_mul v 64 64
  have hfirst : v / 4096 / 64 = v / 262144 := Nat.div_div_eq_div_mul v 4096 64
  rw [encodeUtf8.encode, show 4 - 1 = 2 + 1 from rfl, encodeTail_eq, encodeTail_eq, encodeTail_eq,
    hsecond, hfirst]
  rfl

/-- The loop of `utf16_literal_to_utf8` writes the UTF-8 encoding. -/
theorem encodeUtf8_char (c : Char) : encodeUtf8 c.toNat = some (String.utf8EncodeChar c) := by
  have hvalid : c.val.toNat < 0xD800 ∨ 0xDFFF < c.val.toNat ∧ c.val.toNat < 0x110000 := c.valid
  have hmark₂ : ∀ m : Fin 32, (m.val ||| 0xC0) &&& 0xFF = m.val + 0xC0 := by decide
  have hmark₃ : ∀ m : Fin 16, (m.val ||| 0xE0) &&& 0xFF = m.val + 0xE0 := by decide
  have hmark₄ : ∀ m : Fin 8, (m.val ||| 0xF0) &&& 0xFF = m.val + 0xF0 := by decide
  show encodeUtf8 c.val.toNat = _
  rw [encodeUtf8, String.utf8EncodeChar]
  generalize c.val.toNat = v at hvalid
  by_cases h1 : v < 0x80
  · rw [if_pos h1, if_pos (show v ≤ 0x7F by omega), Nat.and_two_pow_sub_one_eq_mod v 7,
      Nat.mod_eq_of_lt (show v < 2 ^ 7 from h1)]
  rw [if_neg h1, if_neg (show ¬ v ≤ 0x7F by omega)]
  by_cases h2 : v < 0x800
  · have hfirst := hmark₂ ⟨v / 64, by omega⟩
    rw [if_pos h2, if_pos (show v ≤ 0x7FF by omega), encode_two, hfirst,
      Nat.mod_eq_of_lt (show v / 64 < 0x20 by omega)]
  rw [if_neg h2, if_neg (show ¬ v ≤ 0x7FF by omega)]
  by_cases h3 : v < 0x10000
  · have hfirst := hmark₃ ⟨v / 4096, by omega⟩
    rw [if_pos h3, if_pos (show v ≤ 0xFFFF by omega), encode_three, hfirst,
      Nat.mod_eq_of_lt (show v / 4096 < 0x10 by omega)]
  have hfirst := hmark₄ ⟨v / 262144, by omega⟩
  rw [if_neg h3, if_neg (show ¬ v ≤ 0xFFFF by omega), if_pos (show v ≤ 0x10FFFF by omega),
    encode_four, hfirst, Nat.mod_eq_of_lt (show v / 262144 < 0x08 by omega)]

/-! ### Literals -/

/-- Four hexadecimal digits with that code. -/
def HexQuad (s : Bytes) (code : Nat) : Prop :=
  ∃ a b c d, s = [a, b, c, d] ∧ (∀ x ∈ s, (hexValue x).isSome = true) ∧ hexCode a b c d = code

/-- A spelling of one character of a literal, and the bytes that it stands for. -/
inductive Spelling : Bytes → Bytes → Prop where
  | plain {b : UInt8} (quote : b ≠ ascii '"') (backslash : b ≠ ascii '\\') : Spelling [b] [b]
  | short {e b : UInt8} (mem : (e, b) ∈ (ascii '/', ascii '/') :: shortEscapes) :
    Spelling [ascii '\\', e] [b]
  | code {s : Bytes} {c : Char} (quad : HexQuad s c.toNat) :
    Spelling (ascii '\\' :: ascii 'u' :: s) (String.utf8EncodeChar c)
  | pair {s t : Bytes} {high low : Nat} {c : Char} (hs : HexQuad s (0xD800 + high))
    (ht : HexQuad t (0xDC00 + low)) (low_lt : low < 0x400)
    (eq : c.toNat = 0x10000 + 0x400 * high + low) :
    Spelling (ascii '\\' :: ascii 'u' :: s ++ ascii '\\' :: ascii 'u' :: t)
      (String.utf8EncodeChar c)

/-- A literal without its quotes, and the bytes that it stands for. -/
inductive Literal : Bytes → Bytes → Prop where
  | nil : Literal [] []
  | cons {s t v w : Bytes} (spelling : Spelling s v) (rest : Literal t w) :
    Literal (s ++ t) (v ++ w)

theorem HexQuad.parse {content s rest : Bytes} {i code : Nat} (h : HexQuad s code)
    (hdrop : content.drop i = s ++ rest) : parseHex4 content i = .ok code := by
  obtain ⟨a, b, c, d, rfl, -, rfl⟩ := h
  exact parseHex4_eq hdrop

theorem HexQuad.length {s : Bytes} {code : Nat} (h : HexQuad s code) : s.length = 4 := by
  obtain ⟨a, b, c, d, rfl, -, -⟩ := h
  rfl

theorem HexQuad.plain {s : Bytes} {code : Nat} (h : HexQuad s code) :
    ∀ x ∈ s, x ≠ ascii '"' ∧ x ≠ ascii '\\' := by
  obtain ⟨a, b, c, d, -, hdigits, -⟩ := h
  intro x hx
  have hvalue := hdigits x hx
  refine ⟨fun he => ?_, fun he => ?_⟩
  · rw [he] at hvalue
    cases hvalue
  · rw [he] at hvalue
    cases hvalue

/-! ### The first loop -/

/-- The first loop runs over `s` and counts `n` escapes. -/
def Scans (s : Bytes) (n : Nat) : Prop :=
  ∀ t inputEnd skipped,
    scanString (s ++ t) inputEnd skipped = scanString t (inputEnd + s.length) (skipped + n)

theorem Scans.append {s t : Bytes} {n m : Nat} (hs : Scans s n) (ht : Scans t m) :
    Scans (s ++ t) (n + m) := by
  intro u inputEnd skipped
  rw [List.append_assoc, hs, ht, List.length_append, Nat.add_assoc, Nat.add_assoc]

theorem scans_plain {s : Bytes} (h : ∀ x ∈ s, x ≠ ascii '"' ∧ x ≠ ascii '\\') : Scans s 0 := by
  intro t inputEnd skipped
  induction s generalizing inputEnd with
  | nil => rfl
  | cons x s ih =>
    obtain ⟨hq, hb⟩ := h x List.mem_cons_self
    rw [List.cons_append, scanString_cons hq hb, ih fun y hy => h y (List.mem_cons_of_mem x hy),
      List.length_cons]
    congr 1
    omega

theorem scans_escape (e : UInt8) : Scans [ascii '\\', e] 1 := fun t inputEnd skipped =>
  scanString_escape e t inputEnd skipped

theorem HexQuad.scans {s : Bytes} {code : Nat} (h : HexQuad s code) :
    Scans (ascii '\\' :: ascii 'u' :: s) 1 :=
  (scans_escape (ascii 'u')).append (scans_plain h.plain)

/-- The first loop leaves room for what a spelling stands for. -/
theorem Spelling.scans {s v : Bytes} (h : Spelling s v) :
    ∃ n, Scans s n ∧ v.length + n ≤ s.length := by
  cases h with
  | plain quote backslash =>
    refine ⟨0, scans_plain fun x hx => ?_, Nat.le_refl _⟩
    rw [List.mem_singleton.1 hx]
    exact ⟨quote, backslash⟩
  | @short e b mem => exact ⟨1, scans_escape e, Nat.le_refl _⟩
  | @code s c quad =>
    have hfour := quad.length
    obtain ⟨a, b, d, e, -, -, hcode⟩ := id quad
    have hlt := hexCode_lt a b d e
    have hlen := (length_encodeUtf8_le (encodeUtf8_char c)).2 (by omega)
    refine ⟨1, quad.scans, ?_⟩
    rw [List.length_cons, List.length_cons]
    omega
  | @pair s t high low c hs ht low_lt eq =>
    have hlen := (length_encodeUtf8_le (encodeUtf8_char c)).1
    have hfour := hs.length
    have hfour' := ht.length
    refine ⟨2, hs.scans.append ht.scans, ?_⟩
    simp only [List.length_append, List.length_cons]
    omega

theorem Literal.scans {s v : Bytes} (h : Literal s v) :
    ∃ n, Scans s n ∧ v.length + n ≤ s.length := by
  induction h with
  | nil => exact ⟨0, fun t inputEnd skipped => rfl, Nat.le_refl _⟩
  | cons spelling rest ih =>
    obtain ⟨n, hs, hroom⟩ := spelling.scans
    obtain ⟨m, ht, hroom'⟩ := ih
    refine ⟨n + m, hs.append ht, ?_⟩
    rw [List.length_append, List.length_append]
    omega

/-! ### The second loop -/

theorem escapeSequence_short {content tl : Bytes} {input inputEnd : Nat} {x e b : UInt8}
    (hdrop : content.drop input = x :: e :: tl)
    (mem : (e, b) ∈ (ascii '/', ascii '/') :: shortEscapes) :
    escapeSequence content input inputEnd = .ok (some ([b], 2)) := by
  rw [escapeSequence, byteAt_of_drop (drop_succ_of_drop hdrop)]
  simp only [shortEscapes, List.mem_cons, List.not_mem_nil, or_false, Prod.mk.injEq] at mem
  rcases mem with h | h | h | h | h | h | h | h <;> (obtain ⟨rfl, rfl⟩ := h; rfl)

theorem escapeSequence_code {content tl : Bytes} {input : Nat} {x : UInt8}
    (hdrop : content.drop input = x :: ascii 'u' :: tl) (inputEnd : Nat) :
    escapeSequence content input inputEnd = utf16LiteralToUtf8 content input inputEnd := by
  rw [escapeSequence, byteAt_of_drop (drop_succ_of_drop hdrop)]
  rfl

theorem drop_hexQuad {content s tl : Bytes} {input code : Nat} {x u : UInt8} (h : HexQuad s code)
    (hdrop : content.drop input = x :: u :: s ++ tl) :
    content.drop (input + 2) = s ++ tl ∧ content.drop (input + 6) = tl := by
  have htwo : content.drop (input + 2) = s ++ tl := drop_succ_of_drop (drop_succ_of_drop hdrop)
  refine ⟨htwo, ?_⟩
  have := drop_add_of_drop htwo
  rwa [h.length] at this

theorem utf16LiteralToUtf8_code {content s tl : Bytes} {input inputEnd : Nat} {x u : UInt8}
    {c : Char} (quad : HexQuad s c.toNat) (hdrop : content.drop input = x :: u :: s ++ tl)
    (hend : input + 6 ≤ inputEnd) :
    utf16LiteralToUtf8 content input inputEnd = .ok (some (String.utf8EncodeChar c, 6)) := by
  have hvalid : c.toNat < 0xD800 ∨ 0xDFFF < c.toNat ∧ c.toNat < 0x110000 := c.valid
  rw [utf16LiteralToUtf8, if_neg (by omega), quad.parse (drop_hexQuad quad hdrop).1]
  simp only [bind, Except.bind]
  rw [if_neg (by omega), if_neg (by omega), encodeUtf8_char]
  rfl

theorem surrogate_bits {high low : Nat} (hhigh : high < 0x400) (hlow : low < 0x400) :
    0x10000 + ((((0xD800 + high) &&& 0x3FF) <<< 10) ||| ((0xDC00 + low) &&& 0x3FF)) =
      0x10000 + 0x400 * high + low := by
  have hmask : ∀ n, n &&& 0x3FF = n % 0x400 := fun n => Nat.and_two_pow_sub_one_eq_mod n 10
  have hhigh' : (0xD800 + high) % 0x400 = high := by omega
  have hlow' : (0xDC00 + low) % 0x400 = low := by omega
  rw [hmask, hmask, hhigh', hlow', Nat.shiftLeft_eq, Nat.mul_comm high,
    ← Nat.two_pow_add_eq_or_of_lt (show low < 2 ^ 10 from hlow) high, Nat.add_assoc]

theorem utf16LiteralToUtf8_pair {content s t tl : Bytes} {input inputEnd high low : Nat}
    {x u : UInt8} {c : Char} (hs : HexQuad s (0xD800 + high)) (ht : HexQuad t (0xDC00 + low))
    (hlow : low < 0x400) (heq : c.toNat = 0x10000 + 0x400 * high + low)
    (hdrop : content.drop input = x :: u :: s ++ (ascii '\\' :: ascii 'u' :: t ++ tl))
    (hend : input + 12 ≤ inputEnd) :
    utf16LiteralToUtf8 content input inputEnd = .ok (some (String.utf8EncodeChar c, 12)) := by
  have hvalid : c.toNat < 0xD800 ∨ 0xDFFF < c.toNat ∧ c.toNat < 0x110000 := c.valid
  obtain ⟨hfirst, hsecond⟩ := drop_hexQuad hs hdrop
  have hcode : parseHex4 content (input + 6 + 2) = .ok (0xDC00 + low) :=
    ht.parse (drop_hexQuad ht hsecond).1
  rw [utf16LiteralToUtf8, if_neg (by omega), hs.parse hfirst]
  simp only [bind, Except.bind]
  rw [if_neg (by omega), if_pos (by omega), surrogatePair, if_neg (by omega),
    byteAt_of_drop hsecond, byteAt_of_drop (drop_succ_of_drop hsecond), hcode]
  simp only [bind, Except.bind, ne_eq, not_true_eq_false, ↓reduceIte]
  rw [if_neg (by omega), surrogate_bits (by omega) hlow, ← heq]
  simp only [encodeUtf8_char]
  rfl

theorem unescape_escape {content tl v output : Bytes} {input inputEnd room n : Nat}
    (hdrop : content.drop input = ascii '\\' :: tl) (hlt : input < inputEnd)
    (hseq : escapeSequence content input inputEnd = .ok (some (v, n)))
    (hroom : output.length + v.length ≤ room) (fuel : Nat) :
    unescape content inputEnd room (fuel + 1) input output =
      unescape content inputEnd room fuel (input + n) (output ++ v) := by
  rw [unescape, if_pos hlt, byteAt_of_drop hdrop]
  simp only [bind, Except.bind, ne_eq, not_true_eq_false, ↓reduceIte, hseq, emit_fits hroom]

/-- One turn of the second loop. -/
theorem Spelling.unescape_eq {content s v t output : Bytes} {input inputEnd room : Nat}
    (h : Spelling s v) (hdrop : content.drop input = s ++ t) (hend : input + s.length ≤ inputEnd)
    (hroom : output.length + v.length ≤ room) (fuel : Nat) :
    unescape content inputEnd room (fuel + 1) input output =
      unescape content inputEnd room fuel (input + s.length) (output ++ v) := by
  cases h with
  | @plain b quote backslash =>
    rw [unescape, if_pos (show input < inputEnd from hend), byteAt_of_drop hdrop]
    simp only [bind, Except.bind, ne_eq, backslash, not_false_eq_true, ↓reduceIte,
      emit_fits hroom, List.length_singleton]
  | @short e b mem =>
    exact unescape_escape hdrop (Nat.lt_of_succ_lt hend) (escapeSequence_short hdrop mem) hroom fuel
  | @code s c quad =>
    have hfour := quad.length
    rw [List.length_cons, List.length_cons, hfour] at hend
    have hseq := (escapeSequence_code hdrop inputEnd).trans
      (utf16LiteralToUtf8_code quad hdrop hend)
    rw [List.length_cons, List.length_cons, hfour]
    exact unescape_escape hdrop (by omega) hseq hroom fuel
  | @pair s u high low c hs hu low_lt eq =>
    have hfour := hs.length
    have hfour' := hu.length
    have hlen : (ascii '\\' :: ascii 'u' :: s ++ ascii '\\' :: ascii 'u' :: u).length = 12 := by
      simp only [List.length_append, List.length_cons, hfour, hfour']
    rw [hlen] at hend ⊢
    rw [List.append_assoc] at hdrop
    have hseq := (escapeSequence_code hdrop inputEnd).trans
      (utf16LiteralToUtf8_pair hs hu low_lt eq hdrop hend)
    exact unescape_escape hdrop (by omega) hseq hroom fuel

theorem Spelling.length_pos {s v : Bytes} (h : Spelling s v) : 0 < s.length := by
  cases h <;> exact Nat.zero_lt_succ _

/-- The second loop over a literal. -/
theorem Literal.unescape_eq {content s v t output : Bytes} {input room fuel : Nat}
    (h : Literal s v) (hdrop : content.drop input = s ++ t) (hfuel : s.length ≤ fuel)
    (hroom : output.length + v.length ≤ room) :
    unescape content (input + s.length) room fuel input output = .ok (output ++ v) := by
  induction h generalizing input fuel output with
  | nil =>
    rw [List.length_nil, Nat.add_zero, unescape_past (Nat.le_refl input), List.append_nil]
  | @cons s u v w spelling rest ih =>
    have hpos := spelling.length_pos
    rw [List.length_append] at hfuel hroom
    rw [List.append_assoc] at hdrop
    obtain ⟨n, rfl⟩ := Nat.exists_eq_add_of_lt
      (Nat.lt_of_lt_of_le hpos (by omega : s.length ≤ fuel))
    rw [List.length_append, Nat.zero_add, ← Nat.add_assoc,
      spelling.unescape_eq hdrop (by omega) (by omega), ih (drop_add_of_drop hdrop) (by omega)
        (by rw [List.length_append]; omega), List.append_assoc]

theorem ofBytes_append_nul (v : Bytes) : Str.ofBytes (v ++ [0]) = Str.ofBytes v := by
  apply Subtype.ext
  show cstr (v ++ [0]) = cstr v
  by_cases hnul : 0 ∈ v
  · obtain ⟨hne, rest, hrest⟩ := contains_of_mem hnul
    rw [hrest, List.append_assoc, List.cons_append, cstr_append_nul _ hne, cstr_append_nul _ hne]
  · rw [cstr_append_nul [] hnul, cstr_eq_self hnul]

/-- Every literal is read as the bytes that it stands for. -/
theorem parseString_literal {content s v rest : Bytes} {offset : Nat} (h : Literal s v)
    (hdrop : content.drop offset = ascii '"' :: s ++ ascii '"' :: rest) :
    parseString content offset = .ok (Str.ofBytes v, offset + s.length + 2) := by
  obtain ⟨n, hscan, hroom⟩ := h.scans
  have hbody : content.drop (offset + 1) = s ++ ascii '"' :: rest := drop_succ_of_drop hdrop
  have hout := h.unescape_eq hbody (show s.length ≤ offset + 1 + s.length - offset by omega)
    (show ([] : Bytes).length + v.length ≤ offset + 1 + s.length - offset - (0 + n) + 1 by
      rw [List.length_nil]
      omega)
  rw [parseString, byteAt_of_drop hdrop]
  simp only [bind, Except.bind, ne_eq, not_true_eq_false, ↓reduceIte, hbody]
  rw [hscan, scanString_quote]
  simp only [hout, List.nil_append]
  rw [emit_fits (by rw [List.length_singleton]; omega)]
  simp only [ofBytes_append_nul]
  congr 2
  omega

end Json
end CFunction
