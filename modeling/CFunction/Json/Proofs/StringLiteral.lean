import CFunction.Json.ParseString

/-!
# The room for a string literal

`parse_string` allocates a byte for every byte of the literal less one for every escape that the
first loop sees. The two loops need not agree on what is an escape, since a `\u` of the second
one may swallow backslashes. The room is enough all the same.
-/

namespace CFunction
namespace Json

open CString

theorem byteAt_of_drop {content tl : Bytes} {i : Nat} {b : UInt8}
    (h : content.drop i = b :: tl) : byteAt content i = .ok b := by
  have hget : content[i]? = some b := by
    rw [← Nat.add_zero i, ← List.getElem?_drop, h]
    rfl
  rw [byteAt, hget]

theorem drop_add_of_drop {content a b : Bytes} {i : Nat} (h : content.drop i = a ++ b) :
    content.drop (i + a.length) = b := by
  rw [← List.drop_drop, h, List.drop_left]

theorem drop_succ_of_drop {content tl : Bytes} {i : Nat} {b : UInt8}
    (h : content.drop i = b :: tl) : content.drop (i + 1) = tl := by
  rw [← List.drop_drop, h]
  rfl

/-! ### The escapes of the first loop -/

/-- How many escapes begin in a text that starts inside an escape or not. -/
def escapes : Bool → Bytes → Nat
  | _, [] => 0
  | true, _ :: s => escapes false s
  | false, c :: s => if c = ascii '\\' then escapes true s + 1 else escapes false s

/-- Whether the text ends inside an escape. -/
def inEscape : Bool → Bytes → Bool
  | inside, [] => inside
  | true, _ :: s => inEscape false s
  | false, c :: s => inEscape (c = ascii '\\') s

theorem inEscape_append (inside : Bool) (s t : Bytes) :
    inEscape inside (s ++ t) = inEscape (inEscape inside s) t := by
  induction s generalizing inside with
  | nil => rfl
  | cons c s ih => cases inside <;> exact ih _

theorem escapes_append (inside : Bool) (s t : Bytes) :
    escapes inside (s ++ t) = escapes inside s + escapes (inEscape inside s) t := by
  induction s generalizing inside with
  | nil => rw [List.nil_append, escapes, inEscape, Nat.zero_add]
  | cons c s ih =>
    cases inside with
    | true => exact ih false
    | false =>
      by_cases hc : c = ascii '\\'
      · simp only [List.cons_append, escapes, inEscape, hc, ↓reduceIte, decide_true, ih true]
        exact Nat.add_right_comm _ _ _
      · simp only [List.cons_append, escapes, inEscape, hc, ↓reduceIte, decide_false, ih false]

/-- An escape takes two bytes, of which the last may be behind the text. -/
theorem two_mul_escapes_le (inside : Bool) (s : Bytes) :
    2 * escapes inside s + inside.toNat ≤ s.length + 1 := by
  induction s generalizing inside with
  | nil => cases inside <;> simp [escapes]
  | cons c s ih =>
    cases inside with
    | true =>
      have := ih false
      simp only [escapes, Bool.toNat_false, Bool.toNat_true, List.length_cons] at this ⊢
      omega
    | false =>
      by_cases hc : c = ascii '\\'
      · have := ih true
        simp only [escapes, hc, ↓reduceIte, Bool.toNat_false, Bool.toNat_true,
          List.length_cons] at this ⊢
        omega
      · have := ih false
        simp only [escapes, hc, ↓reduceIte, Bool.toNat_false, List.length_cons] at this ⊢
        omega

theorem escapes_le_length (s : Bytes) : escapes false s ≤ s.length := by
  have := two_mul_escapes_le false s
  rw [Bool.toNat_false] at this
  omega

@[simp] theorem scanString_quote (rest : Bytes) (inputEnd skipped : Nat) :
    scanString (ascii '"' :: rest) inputEnd skipped = some (inputEnd, skipped) := by
  rw [scanString.eq_def]
  exact if_pos rfl

@[simp] theorem scanString_escape (c : UInt8) (rest : Bytes) (inputEnd skipped : Nat) :
    scanString (ascii '\\' :: c :: rest) inputEnd skipped =
      scanString rest (inputEnd + 2) (skipped + 1) := by
  rw [scanString.eq_def]
  exact (if_neg (by decide)).trans (if_pos rfl)

theorem scanString_cons {c : UInt8} (hc : c ≠ ascii '"') (hb : c ≠ ascii '\\') (rest : Bytes)
    (inputEnd skipped : Nat) :
    scanString (c :: rest) inputEnd skipped = scanString rest (inputEnd + 1) skipped := by
  rw [scanString.eq_def]
  exact (if_neg hc).trans (if_neg hb)

/-- The first loop stops at a quote that is not part of an escape. -/
theorem scanString_eq_some {s : Bytes} {inputEnd skipped inputEnd' skipped' : Nat}
    (h : scanString s inputEnd skipped = some (inputEnd', skipped')) :
    ∃ literal rest, s = literal ++ ascii '"' :: rest ∧ inputEnd' = inputEnd + literal.length ∧
      skipped' = skipped + escapes false literal ∧ inEscape false literal = false := by
  induction s, inputEnd, skipped using scanString.induct with
  | case1 inputEnd skipped => cases h
  | case2 rest inputEnd skipped =>
    rw [scanString_quote] at h
    obtain ⟨rfl, rfl⟩ := Prod.mk.inj (Option.some.inj h)
    exact ⟨[], rest, rfl, rfl, rfl, rfl⟩
  | case3 inputEnd skipped hc => cases h
  | case4 inputEnd skipped c rest hc ih =>
    rw [scanString_escape] at h
    obtain ⟨literal, behind, hs, hend, hskip, hin⟩ := ih h
    refine ⟨ascii '\\' :: c :: literal, behind, by rw [hs]; rfl, ?_, ?_, hin⟩
    · rw [hend, List.length_cons, List.length_cons]
      omega
    · simp only [escapes, ↓reduceIte, hskip]
      omega
  | case5 c rest inputEnd skipped hc hb ih =>
    rw [scanString_cons hc hb] at h
    obtain ⟨literal, behind, hs, hend, hskip, hin⟩ := ih h
    refine ⟨c :: literal, behind, by rw [hs]; rfl, ?_, ?_, ?_⟩
    · rw [hend, List.length_cons]
      omega
    · simp only [escapes, hb, ↓reduceIte, hskip]
    · simpa only [inEscape, hb, decide_false] using hin

/-- A literal that ends outside an escape and begins with its last byte is in one there. -/
theorem escapes_singleton {inside : Bool} {c : UInt8} (hc : c = ascii '\\')
    (h : inEscape inside [c] = false) : escapes inside [c] = 0 := by
  cases inside with
  | true => rfl
  | false => simp [inEscape, hc] at h

/-! ### The second loop -/

/-- The code of four hexadecimal digits. -/
def hexCode (a b c d : UInt8) : Nat :=
  match hexValue a, hexValue b, hexValue c, hexValue d with
  | some a, some b, some c, some d => 4096 * a + 256 * b + 16 * c + d
  | _, _, _, _ => 0

theorem hexValue_lt {c : UInt8} {d : Nat} (h : hexValue c = some d) : d < 16 := by
  simp only [hexValue, UInt8.le_iff_toNat_le] at h
  have h57 : (57 : UInt8).toNat = 57 := rfl
  have h70 : (70 : UInt8).toNat = 70 := rfl
  have h102 : (102 : UInt8).toNat = 102 := rfl
  split at h
  · cases h
    omega
  · split at h
    · cases h
      omega
    · split at h
      · cases h
        omega
      · cases h

theorem hexCode_lt (a b c d : UInt8) : hexCode a b c d < 65536 := by
  unfold hexCode
  split
  · rename_i ha hb hc hd
    have := hexValue_lt ha
    have := hexValue_lt hb
    have := hexValue_lt hc
    have := hexValue_lt hd
    omega
  · exact Nat.zero_lt_succ _

theorem hexLoop_cons {content tl : Bytes} {i : Nat} {c : UInt8} (h : content.drop i = c :: tl)
    (n code : Nat) :
    hexLoop content i (n + 1) code =
      match hexValue c with
      | none => .ok 0
      | some d =>
        hexLoop content (i + 1) n (if n ≠ 0 then (code + d) <<< 4 else code + d) := by
  rw [hexLoop, byteAt_of_drop h]
  rfl

theorem parseHex4_eq {content tl : Bytes} {i : Nat} {a b c d : UInt8}
    (h : content.drop i = a :: b :: c :: d :: tl) :
    parseHex4 content i = .ok (hexCode a b c d) := by
  have h1 := drop_succ_of_drop h
  have h2 := drop_succ_of_drop h1
  have h3 := drop_succ_of_drop h2
  rw [parseHex4, hexLoop_cons h, hexCode]
  cases hexValue a with
  | none => rfl
  | some a =>
    simp only [hexLoop_cons h1]
    cases hexValue b with
    | none => rfl
    | some b =>
      simp only [hexLoop_cons h2]
      cases hexValue c with
      | none => rfl
      | some c =>
        simp only [hexLoop_cons h3]
        cases hexValue d with
        | none => rfl
        | some d =>
          have hsum : ((((0 + a) <<< 4 + b) <<< 4 + c) <<< 4 + d) =
              4096 * a + 256 * b + 16 * c + d := by
            simp only [Nat.shiftLeft_eq]
            omega
          exact congrArg Except.ok hsum

/-! ### What an escape sequence gives -/

theorem length_encodeTail (n codepoint : Nat) (tail : Bytes) :
    (encodeTail n codepoint tail).2.length = n + tail.length := by
  induction n generalizing codepoint tail with
  | zero => exact (Nat.zero_add _).symm
  | succ n ih =>
    rw [encodeTail, ih, List.length_cons]
    omega

theorem length_encode (codepoint n mark : Nat) :
    (encodeUtf8.encode codepoint n mark).length = n - 1 + 1 := by
  have := length_encodeTail (n - 1) codepoint []
  simpa [encodeUtf8.encode] using this

theorem length_encodeUtf8_le {codepoint : Nat} {bytes : Bytes}
    (h : encodeUtf8 codepoint = some bytes) :
    bytes.length ≤ 4 ∧ (codepoint < 0x10000 → bytes.length ≤ 3) := by
  unfold encodeUtf8 at h
  split at h
  · cases h
    exact ⟨by simp, fun _ => by simp⟩
  · split at h
    · cases h
      rw [length_encode]
      exact ⟨by simp, fun _ => by simp⟩
    · split at h
      · cases h
        rw [length_encode]
        exact ⟨by simp, fun _ => by simp⟩
      · split at h
        · cases h
          rename_i hlow _
          rw [length_encode]
          exact ⟨by simp, fun hlt => absurd hlt hlow⟩
        · cases h

/-- Bytes that take no more room than their sequence gives up, whatever the first loop saw. -/
def Fits (bytes : Bytes) (sequenceLength : Nat) : Prop :=
  sequenceLength = 2 ∧ bytes.length = 1 ∨ sequenceLength = 6 ∧ bytes.length ≤ 3 ∨
    sequenceLength = 12 ∧ bytes.length ≤ 4

/-- An escape is never read outside the text, and a UTF-16 one stays inside the literal. -/
def EscapeRead (left : Nat) (result : Except Stop (Option (Bytes × Nat))) : Prop :=
  result = .ok none ∨ ∃ bytes n, result = .ok (some (bytes, n)) ∧ Fits bytes n ∧
    (n = 2 ∨ n ≤ left)

theorem exists_prefix {s : Bytes} {n : Nat} (h : n ≤ s.length) :
    ∃ front, front.length = n ∧ ∃ behind, s = front ++ behind :=
  ⟨s.take n, List.length_take_of_le h, s.drop n, (List.take_append_drop n s).symm⟩

theorem surrogatePair_read {content s rest : Bytes} {second : Nat} (firstCode : Nat)
    (h : content.drop second = s ++ rest) :
    surrogatePair content firstCode second (second + s.length) = .ok none ∨
      ∃ codepoint, surrogatePair content firstCode second (second + s.length) =
        .ok (some codepoint) ∧ 6 ≤ s.length := by
  rw [surrogatePair]
  split
  · exact Or.inl rfl
  · rename_i hlen
    have hlen : 6 ≤ s.length := by omega
    match s, hlen with
    | a :: b :: c :: d :: e :: f :: tl, hlen =>
      have h1 := drop_succ_of_drop h
      have h2 := drop_succ_of_drop h1
      rw [byteAt_of_drop h, byteAt_of_drop h1, parseHex4_eq h2]
      simp only [Except.bind, bind]
      split
      · exact Or.inl rfl
      · split
        · exact Or.inl rfl
        · split
          · exact Or.inl rfl
          · exact Or.inr ⟨_, rfl, hlen⟩

theorem utf16LiteralToUtf8_read {content s rest : Bytes} {input : Nat}
    (h : content.drop input = s ++ rest) :
    EscapeRead s.length (utf16LiteralToUtf8 content input (input + s.length)) := by
  rw [utf16LiteralToUtf8]
  split
  · exact Or.inl rfl
  · rename_i hlen
    have hlen : 6 ≤ s.length := by omega
    match s, hlen with
    | x :: u :: a :: b :: c :: d :: tl, hlen =>
      have h2 := drop_succ_of_drop (drop_succ_of_drop h)
      have h6 : content.drop (input + 6) = tl ++ rest :=
        drop_add_of_drop (a := [x, u, a, b, c, d]) (b := tl ++ rest) h
      rw [parseHex4_eq h2]
      simp only [Except.bind, bind]
      split
      · exact Or.inl rfl
      · split
        · have hpair := surrogatePair_read (hexCode a b c d) h6
          rw [show input + 6 + tl.length = input + (x :: u :: a :: b :: c :: d :: tl).length by
            simp only [List.length_cons]
            omega] at hpair
          obtain hnone | ⟨codepoint, hsome, hroom⟩ := hpair
          · rw [hnone]
            exact Or.inl rfl
          · rw [hsome]
            cases henc : encodeUtf8 codepoint with
            | none =>
              left
              simp only [henc]
              rfl
            | some bytes =>
              refine Or.inr ⟨bytes, 12, by simp only [henc]; rfl, ?_, ?_⟩
              · exact Or.inr (Or.inr ⟨rfl, (length_encodeUtf8_le henc).1⟩)
              · right
                simp only [List.length_cons]
                omega
        · cases henc : encodeUtf8 (hexCode a b c d) with
          | none => exact Or.inl rfl
          | some bytes =>
            refine Or.inr ⟨bytes, 6, rfl, ?_, Or.inr hlen⟩
            exact Or.inr (Or.inl ⟨rfl, (length_encodeUtf8_le henc).2 (hexCode_lt a b c d)⟩)

theorem escapeSequence_read {content s rest : Bytes} {input : Nat} {c : UInt8}
    (h : content.drop input = c :: s ++ ascii '"' :: rest) :
    EscapeRead (s.length + 1) (escapeSequence content input (input + (s.length + 1))) := by
  obtain ⟨d, tl, hd⟩ : ∃ d tl, s ++ ascii '"' :: rest = d :: tl :=
    List.exists_cons_of_ne_nil (by simp)
  have h1 : content.drop (input + 1) = d :: tl := by
    rw [← hd]
    exact drop_succ_of_drop h
  have hone : ∀ b : UInt8, EscapeRead (s.length + 1) (.ok (some ([b], 2))) := fun b =>
    Or.inr ⟨[b], 2, rfl, Or.inl ⟨rfl, rfl⟩, Or.inl rfl⟩
  rw [escapeSequence, byteAt_of_drop h1]
  simp only [Except.bind, bind]
  split
  · exact hone 8
  split
  · exact hone 12
  split
  · exact hone 10
  split
  · exact hone 13
  split
  · exact hone 9
  split
  · exact hone d
  split
  · exact utf16LiteralToUtf8_read (s := c :: s) h
  · exact Or.inl rfl

/-! ### The second loop -/

theorem emit_fits {room : Nat} {output bytes : Bytes} (h : output.length + bytes.length ≤ room) :
    emit room output bytes = .ok (output ++ bytes) := if_pos h

/-- What a sequence writes and the escapes in it take no more than its own bytes. -/
theorem Fits.room {bytes front : Bytes} {n : Nat} (h : Fits bytes n) (hn : front.length = n)
    (inside : Bool) : bytes.length + escapes inside front ≤ n := by
  have := two_mul_escapes_le inside front
  unfold Fits at h
  omega

theorem unescape_past {content output : Bytes} {inputEnd room fuel input : Nat}
    (h : inputEnd ≤ input) : unescape content inputEnd room fuel input output = .ok output := by
  cases fuel with
  | zero => exact if_neg (Nat.not_lt.2 h)
  | succ fuel => exact if_neg (Nat.not_lt.2 h)

/-- The second loop keeps, for every byte that it has still to read, the room that the first loop
counted for it. -/
theorem unescape_room {content literal rest output : Bytes} {input fuel room budget : Nat}
    {inside : Bool} (hdrop : content.drop input = literal ++ ascii '"' :: rest)
    (hfuel : literal.length ≤ fuel) (hend : inEscape inside literal = false)
    (hbudget : output.length + literal.length ≤ budget + escapes inside literal)
    (hroom : budget ≤ room) :
    (∃ output', unescape content (input + literal.length) room fuel input output = .ok output' ∧
      output'.length ≤ budget) ∨
    ∃ offset, unescape content (input + literal.length) room fuel input output =
      .error (.rejected offset) := by
  induction fuel generalizing input output literal inside with
  | zero =>
    have hnil : literal = [] := List.eq_nil_of_length_eq_zero (Nat.le_zero.1 hfuel)
    subst hnil
    refine Or.inl ⟨output, ?_, ?_⟩
    · rw [unescape, if_neg (by simp)]
    · simpa [escapes] using hbudget
  | succ fuel ih =>
    match literal with
    | [] =>
      refine Or.inl ⟨output, ?_, ?_⟩
      · rw [unescape, if_neg (by simp)]
      · simpa [escapes] using hbudget
    | c :: s =>
      rw [List.length_cons] at hfuel hbudget ⊢
      have hread : byteAt content input = .ok c := byteAt_of_drop hdrop
      rw [unescape, if_pos (by omega), hread]
      simp only [Except.bind, bind]
      by_cases hc : c = ascii '\\'
      · rw [if_neg (not_not_intro hc)]
        obtain hnone | ⟨bytes, n, hsome, hfits, hn⟩ := escapeSequence_read hdrop
        · rw [hnone]
          exact Or.inr ⟨input, rfl⟩
        · rw [hsome]
          by_cases hover : s = [] ∧ n = 2
          · -- the sequence ends with the closing quote itself
            obtain ⟨rfl, rfl⟩ := hover
            have hlen : bytes.length = 1 := by
              unfold Fits at hfits
              omega
            have hnone := escapes_singleton hc hend
            rw [hnone, List.length_nil] at hbudget
            have hfit : output.length + bytes.length ≤ budget := by omega
            simp only [emit_fits (Nat.le_trans hfit hroom)]
            rw [unescape_past (by simp)]
            exact Or.inl ⟨_, rfl, by rw [List.length_append]; exact hfit⟩
          · have hn' : n ≤ (c :: s).length := by
              rcases hn with rfl | hn
              · have : s.length ≠ 0 := fun h => hover ⟨List.eq_nil_of_length_eq_zero h, rfl⟩
                rw [List.length_cons]
                omega
              · exact hn
            obtain ⟨front, hfront, behind, hsplit⟩ := exists_prefix hn'
            have hlens : front.length + behind.length = s.length + 1 := by
              rw [← List.length_append, ← hsplit, List.length_cons]
            have hpos : 2 ≤ n := by
              unfold Fits at hfits
              omega
            have hbytes := hfits.room hfront inside
            have hleft := two_mul_escapes_le (inEscape inside front) behind
            rw [hsplit] at hend
            rw [hsplit, escapes_append] at hbudget
            rw [inEscape_append] at hend
            have hbehind : escapes (inEscape inside front) behind ≤ behind.length := by omega
            have hfit : output.length + bytes.length ≤ budget := by omega
            simp only [emit_fits (Nat.le_trans hfit hroom)]
            have hdrop' : content.drop (input + n) = behind ++ ascii '"' :: rest := by
              rw [hsplit, List.append_assoc] at hdrop
              rw [← hfront]
              exact drop_add_of_drop hdrop
            have hbudget' : (output ++ bytes).length + behind.length ≤
                budget + escapes (inEscape inside front) behind := by
              rw [List.length_append]
              omega
            have hrec := ih hdrop' (by omega) hend hbudget'
            rw [show input + (s.length + 1) = input + n + behind.length by omega]
            exact hrec
      · have hskip : escapes inside (c :: s) = escapes false s := by
          cases inside with
          | true => rfl
          | false => simp only [escapes, hc, ↓reduceIte]
        have hin : inEscape false s = false := by
          cases inside with
          | true => exact hend
          | false => simpa only [inEscape, hc, decide_false] using hend
        have hle := escapes_le_length s
        have hfit : output.length + [c].length ≤ room := by
          rw [hskip] at hbudget
          rw [List.length_singleton]
          omega
        rw [if_pos hc, emit_fits hfit]
        have hbudget' : (output ++ [c]).length + s.length ≤ budget + escapes false s := by
          rw [hskip] at hbudget
          rw [List.length_append, List.length_singleton]
          omega
        have hrec := ih (drop_succ_of_drop hdrop) (by omega) hin hbudget'
        rw [show input + (s.length + 1) = input + 1 + s.length by omega]
        exact hrec

/-- `parse_string` reads no byte outside the text and writes none outside its output, and it
stops behind a closing quote of the text. -/
theorem parseString_settled {content : Bytes} {offset : Nat} (h : offset < content.length) :
    (∃ name offset', parseString content offset = .ok (name, offset') ∧ offset < offset' ∧
      offset' ≤ content.length) ∨
    ∃ stop, parseString content offset = .error (.rejected stop) := by
  have hdrop : content.drop offset = content[offset] :: content.drop (offset + 1) :=
    List.drop_eq_getElem_cons h
  rw [parseString, byteAt_of_drop hdrop]
  simp only [Except.bind, bind]
  split
  · exact Or.inr ⟨_, rfl⟩
  · split
    · exact Or.inr ⟨_, rfl⟩
    · rename_i inputEnd skipped hscan
      obtain ⟨literal, rest, hs, hend, hskip, hin⟩ := scanString_eq_some hscan
      have hle := escapes_le_length literal
      have hlen := congrArg List.length hs
      rw [List.length_drop, List.length_append, List.length_cons] at hlen
      rw [Nat.zero_add] at hskip
      have hbudget : ([] : Bytes).length + literal.length ≤
          literal.length - escapes false literal + escapes false literal := by
        rw [List.length_nil]
        omega
      have hroom : literal.length - escapes false literal ≤ inputEnd - offset - skipped + 1 := by
        omega
      have hfuel : literal.length ≤ inputEnd - offset := by omega
      have hrun := unescape_room hs hfuel hin hbudget hroom
      rw [← hend] at hrun
      obtain ⟨output, hout, hroom⟩ | ⟨stop, hstop⟩ := hrun
      · rw [hout]
        simp only
        rw [emit_fits (by rw [List.length_singleton]; omega)]
        exact Or.inl ⟨_, _, rfl, by omega, by omega⟩
      · rw [hstop]
        exact Or.inr ⟨stop, rfl⟩

end Json
end CFunction
