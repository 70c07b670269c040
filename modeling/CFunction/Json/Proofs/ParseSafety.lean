import CFunction.Json.Parse
import CFunction.Json.Proofs.StringLiteral

/-!
# The parser stays inside its text

On a text that does not end with a comma `cJSON_ParseWithLengthOpts` reads no byte behind it and
comes to an end. A comma at the end of the text makes `parse_object` read the byte behind it,
which is why `cJSON_Parse` hands over the NUL as well.
-/

namespace CFunction
namespace Json

open CString

variable {ν : Type} {D : Doubles ν} {content : Bytes} {offset depth fuel : Nat}

/-! ### White space -/

theorem le_skipWhitespace (content : Bytes) (offset : Nat) :
    offset ≤ skipWhitespace content offset := by
  unfold skipWhitespace
  dsimp only
  split
  · split <;> omega
  · exact Nat.le_refl offset

theorem skipWhitespace_lt (h : offset < content.length) :
    skipWhitespace content offset < content.length := by
  have hlen : ((content.drop offset).takeWhile (· ≤ 32)).length ≤ (content.drop offset).length :=
    (List.takeWhile_sublist _).length_le
  rw [List.length_drop] at hlen
  unfold skipWhitespace
  dsimp only
  rw [if_pos h]
  split <;> omega

theorem skipWhitespace_le (h : offset ≤ content.length) :
    skipWhitespace content offset ≤ content.length := by
  rcases Nat.lt_or_eq_of_le h with hlt | heq
  · exact Nat.le_of_lt (skipWhitespace_lt hlt)
  · rw [skipWhitespace, if_neg (by omega)]
    exact h

/-! ### Numbers -/

theorem signLength_le (s : Bytes) : signLength s ≤ s.length := by
  cases s with
  | nil => exact Nat.le_refl 0
  | cons c s =>
    rw [signLength, List.length_cons]
    split <;> omega

theorem digitsLength_le (s : Bytes) : digitsLength s ≤ s.length :=
  (List.takeWhile_sublist _).length_le

theorem mantissaLength_le (s : Bytes) : mantissaLength s ≤ s.length := by
  have hi := digitsLength_le s
  rw [mantissaLength]
  split
  · exact hi
  · rename_i c rest hdrop
    have hlen := congrArg List.length hdrop
    have hj := digitsLength_le rest
    rw [List.length_drop, List.length_cons] at hlen
    split
    · split <;> omega
    · exact hi

theorem exponentLength_le (s : Bytes) : exponentLength s ≤ s.length := by
  cases s with
  | nil => exact Nat.le_refl 0
  | cons c s =>
    have hsign := signLength_le s
    have hdigits := digitsLength_le (s.drop (signLength s))
    rw [List.length_drop] at hdigits
    simp only [exponentLength, List.length_cons]
    split
    · split <;> omega
    · omega

theorem strtodLength_le (s : Bytes) : strtodLength s ≤ s.length := by
  have hsign := signLength_le s
  have hmantissa := mantissaLength_le (s.drop (signLength s))
  have hexponent :=
    exponentLength_le (s.drop (signLength s + mantissaLength (s.drop (signLength s))))
  rw [List.length_drop] at hmantissa hexponent
  simp only [strtodLength]
  split <;> omega

/-! ### The invariant -/

/-- An item behind the offset and inside the text, or a text that is rejected. -/
def Settled {α : Type} (content : Bytes) (offset : Nat) (result : Except Stop (α × Nat)) : Prop :=
  (∃ value offset', result = .ok (value, offset') ∧ offset < offset' ∧
    offset' ≤ content.length) ∨ ∃ stop, result = .error (.rejected stop)

theorem settled_ok {α : Type} {value : α} {offset' : Nat} (h : offset < offset')
    (hle : offset' ≤ content.length) : Settled content offset (.ok (value, offset')) :=
  Or.inl ⟨value, offset', rfl, h, hle⟩

theorem settled_rejected {α : Type} (stop : Nat) :
    Settled content offset (.error (.rejected stop) : Except Stop (α × Nat)) :=
  Or.inr ⟨stop, rfl⟩

/-- What follows a settled result, when it is settled from there on. -/
theorem Settled.bind {α β : Type} {result : Except Stop (α × Nat)} {start : Nat}
    (h : Settled content start result) {next : α × Nat → Except Stop (β × Nat)}
    (hnext : ∀ value offset', start < offset' → offset' ≤ content.length →
      Settled content offset (next (value, offset'))) :
    Settled content offset (result >>= next) := by
  obtain ⟨value, offset', rfl, hlt, hle⟩ | ⟨stop, rfl⟩ := h
  · exact hnext value offset' hlt hle
  · exact settled_rejected stop

theorem wordAt_le {word : String} (h : wordAt content offset word = true) :
    offset + (text word).length ≤ content.length ∨ text word = [] := by
  obtain ⟨t, ht⟩ := List.isPrefixOf_iff_prefix.1 h
  have hlen := congrArg List.length ht
  rw [List.length_append, List.length_drop] at hlen
  cases hw : text word with
  | nil => exact Or.inr rfl
  | cons b w =>
    left
    rw [hw, List.length_cons] at hlen
    rw [List.length_cons]
    omega

theorem lt_of_getElem?_eq_some {i : Nat} {b : UInt8} (h : content[i]? = some b) :
    i < content.length := (List.getElem?_eq_some_iff.1 h).1

theorem parseNumber_settled (D : Doubles ν) (content : Bytes) (offset : Nat) :
    Settled content offset (parseNumber D content offset) := by
  have hle := strtodLength_le (numberCString content offset)
  have hlen : (numberCString content offset).length ≤ content.length - offset := by
    refine Nat.le_trans (List.takeWhile_sublist _).length_le ?_
    rw [List.length_take, List.length_drop]
    exact Nat.min_le_right _ _
  unfold parseNumber
  dsimp only
  split
  · exact settled_rejected offset
  · split
    · split
      · exact settled_rejected offset
      · exact settled_ok (by omega) (by omega)
    · exact settled_ok (by omega) (by omega)

/-- What the five functions of the recursion guarantee when the fuel is enough for the bytes that
are left. -/
structure ParseInvariant (D : Doubles ν) (content : Bytes) (fuel : Nat) : Prop where
  value : ∀ offset depth, 3 * (content.length - offset) < fuel →
    Settled content offset (parseValue D content fuel offset depth)
  array : ∀ offset depth, offset < content.length → 3 * (content.length - offset) ≤ fuel →
    Settled content offset (parseArray D content fuel offset depth)
  elements : ∀ offset depth, offset < content.length → 3 * (content.length - offset) ≤ fuel + 1 →
    Settled content offset (parseElements D content fuel offset depth)
  object : ∀ offset depth, offset < content.length → 3 * (content.length - offset) ≤ fuel →
    Settled content offset (parseObject D content fuel offset depth)
  members : ∀ offset depth, offset + 1 < content.length →
    3 * (content.length - offset) ≤ fuel + 1 →
    Settled content offset (parseMembers D content fuel offset depth)

theorem Settled.mono {α : Type} {result : Except Stop (α × Nat)} {start : Nat}
    (h : Settled content start result) (hle : offset ≤ start) : Settled content offset result := by
  obtain ⟨value, offset', rfl, hlt, hend⟩ | ⟨stop, rfl⟩ := h
  · exact settled_ok (Nat.lt_of_le_of_lt hle hlt) hend
  · exact settled_rejected stop

theorem parseValue_settled (ih : ParseInvariant D content fuel) (depth : Nat)
    (hfuel : 3 * (content.length - offset) < fuel + 1) :
    Settled content offset (parseValue D content (fuel + 1) offset depth) := by
  have hword : ∀ {word : String} {n : Nat}, (text word).length = n → 0 < n →
      wordAt content offset word = true → offset + n ≤ content.length := by
    intro word n hn hpos hat
    rcases wordAt_le hat with hle | hnil
    · rwa [hn] at hle
    · rw [hnil, List.length_nil] at hn
      omega
  rw [parseValue]
  split
  · rename_i hat
    exact settled_ok (by omega) (hword rfl (by omega) hat)
  split
  · rename_i hat
    exact settled_ok (by omega) (hword rfl (by omega) hat)
  split
  · rename_i hat
    exact settled_ok (by omega) (hword rfl (by omega) hat)
  split
  · exact settled_rejected offset
  rename_i c hc
  have hlt := lt_of_getElem?_eq_some hc
  split
  · exact Settled.bind (parseString_settled hlt) fun name offset' h hle => settled_ok h hle
  split
  · exact parseNumber_settled D content offset
  split
  · exact ih.array offset depth hlt (by omega)
  split
  · exact ih.object offset depth hlt (by omega)
  · exact settled_rejected offset

theorem parseArray_settled (ih : ParseInvariant D content fuel) (depth : Nat)
    (hoffset : offset < content.length) (hfuel : 3 * (content.length - offset) ≤ fuel + 1) :
    Settled content offset (parseArray D content (fuel + 1) offset depth) := by
  rw [parseArray]
  split
  · exact settled_rejected offset
  rw [byteAt_of_drop (List.drop_eq_getElem_cons hoffset)]
  simp only [Except.bind, bind]
  split
  · exact settled_rejected offset
  have hskip := le_skipWhitespace content (offset + 1)
  split
  · exact settled_rejected _
  rename_i c hc
  have hlt := lt_of_getElem?_eq_some hc
  split
  · exact settled_ok (by omega) (by omega)
  refine (ih.elements (skipWhitespace content (offset + 1) - 1) (depth + 1) (by omega)
    (by omega)).bind fun child offset' h hle => ?_
  dsimp only
  split
  · rename_i hclose
    have := lt_of_getElem?_eq_some hclose
    exact settled_ok (by omega) (by omega)
  · exact settled_rejected offset'

theorem parseElements_settled (ih : ParseInvariant D content fuel) (depth : Nat)
    (hoffset : offset < content.length) (hfuel : 3 * (content.length - offset) ≤ fuel + 2) :
    Settled content offset (parseElements D content (fuel + 1) offset depth) := by
  have hskip := le_skipWhitespace content (offset + 1)
  rw [parseElements]
  refine (ih.value _ depth (by omega)).bind fun item offset' h hle => ?_
  dsimp only
  have hskip' := le_skipWhitespace content offset'
  split
  · rename_i hcomma
    have hlt := lt_of_getElem?_eq_some hcomma
    refine (ih.elements _ depth hlt (by omega)).bind fun rest offset'' h' hle' => ?_
    exact settled_ok (by omega) hle'
  · exact settled_ok (by omega) (skipWhitespace_le hle)

theorem parseObject_settled (ih : ParseInvariant D content fuel) (depth : Nat)
    (hoffset : offset < content.length) (hfuel : 3 * (content.length - offset) ≤ fuel + 1) :
    Settled content offset (parseObject D content (fuel + 1) offset depth) := by
  rw [parseObject]
  split
  · exact settled_rejected offset
  split
  · exact settled_rejected offset
  have hskip := le_skipWhitespace content (offset + 1)
  dsimp only
  split
  · exact settled_rejected _
  rename_i c hc
  have hlt := lt_of_getElem?_eq_some hc
  split
  · exact settled_ok (by omega) (by omega)
  refine (ih.members (skipWhitespace content (offset + 1) - 1) (depth + 1) (by omega)
    (by omega)).bind fun child offset' h hle => ?_
  dsimp only
  split
  · rename_i hclose
    have := lt_of_getElem?_eq_some hclose
    exact settled_ok (by omega) (by omega)
  · exact settled_rejected offset'

theorem parseMembers_settled (ih : ParseInvariant D content fuel)
    (hlast : content.getLast? ≠ some (ascii ',')) (depth : Nat)
    (hoffset : offset + 1 < content.length) (hfuel : 3 * (content.length - offset) ≤ fuel + 2) :
    Settled content offset (parseMembers D content (fuel + 1) offset depth) := by
  have hskip := le_skipWhitespace content (offset + 1)
  have hskiplt := skipWhitespace_lt hoffset
  rw [parseMembers]
  refine Settled.bind (parseString_settled hskiplt) fun name colon h hle => ?_
  dsimp only
  have hcolon := le_skipWhitespace content colon
  split
  · exact settled_rejected _
  rename_i hfound
  have hcolonlt := lt_of_getElem?_eq_some (not_not.1 hfound)
  have hvalue := le_skipWhitespace content (skipWhitespace content colon + 1)
  refine (ih.value _ depth (by omega)).bind fun item offset' h' hle' => ?_
  dsimp only
  have hnext := le_skipWhitespace content offset'
  split
  · rename_i hcomma
    have hlt := lt_of_getElem?_eq_some hcomma
    have hne : skipWhitespace content offset' + 1 ≠ content.length := fun he => by
      apply hlast
      rw [List.getLast?_eq_getElem?, ← hcomma]
      congr 1
      omega
    refine (ih.members _ depth (by omega) (by omega)).bind fun rest offset'' h'' hle'' => ?_
    exact settled_ok (by omega) hle''
  · exact settled_ok (by omega) (skipWhitespace_le hle')

theorem parseInvariant (D : Doubles ν) (hlast : content.getLast? ≠ some (ascii ','))
    (fuel : Nat) : ParseInvariant D content fuel := by
  induction fuel with
  | zero =>
    refine ⟨?_, ?_, ?_, ?_, ?_⟩ <;> intros <;> omega
  | succ fuel ih =>
    exact ⟨fun _ depth hf => parseValue_settled ih depth hf,
      fun _ depth h hf => parseArray_settled ih depth h hf,
      fun _ depth h hf => parseElements_settled ih depth h hf,
      fun _ depth h hf => parseObject_settled ih depth h hf,
      fun _ depth h hf => parseMembers_settled ih hlast depth h hf⟩

/-! ### The whole text -/

/-- An item and a place in the text or behind it, on a NUL where one is required, or a place in
the text at which it is rejected. -/
def ParsedInside (value : Bytes) (requireNullTerminated : Bool)
    (result : Except Stop (Item ν × Nat)) : Prop :=
  (∃ item parseEnd, result = .ok (item, parseEnd) ∧ parseEnd ≤ value.length ∧
    (requireNullTerminated = true → value[parseEnd]? = some 0)) ∨
  ∃ stop, result = .error (.rejected stop) ∧ (stop < value.length ∨ value = [])

theorem parseText_settled (D : Doubles ν) {value : Bytes} (requireNullTerminated : Bool)
    (hlast : value.getLast? ≠ some (ascii ',')) :
    (∃ item parseEnd, parseText D value requireNullTerminated = .ok (item, parseEnd) ∧
      parseEnd ≤ value.length ∧ (requireNullTerminated = true → value[parseEnd]? = some 0)) ∨
    ∃ stop, parseText D value requireNullTerminated = .error (.rejected stop) := by
  rw [parseText]
  split
  · exact Or.inr ⟨0, rfl⟩
  obtain ⟨item, parseEnd, hvalue, hlt, hle⟩ | ⟨stop, hvalue⟩ :=
    (parseInvariant D hlast (parseFuel value)).value
      (skipWhitespace value (skipUtf8Bom value)) 0 (by simp only [parseFuel]; omega)
  · simp only [hvalue, Except.bind, bind]
    split
    · split
      · rename_i hnul
        exact Or.inl ⟨item, _, rfl, skipWhitespace_le hle, fun _ => hnul⟩
      · exact Or.inr ⟨_, rfl⟩
    · rename_i hreq
      exact Or.inl ⟨item, parseEnd, rfl, hle, fun h => absurd h hreq⟩
  · simp only [hvalue, Except.bind, bind]
    exact Or.inr ⟨stop, rfl⟩

theorem parseWithLengthOpts_inside (D : Doubles ν) {value : Bytes} (requireNullTerminated : Bool)
    (hlast : value.getLast? ≠ some (ascii ',')) :
    ParsedInside value requireNullTerminated
      (parseWithLengthOpts D value requireNullTerminated) := by
  unfold parseWithLengthOpts
  obtain ⟨item, parseEnd, htext, h⟩ | ⟨stop, htext⟩ :=
    parseText_settled D requireNullTerminated hlast
  · rw [htext]
    exact Or.inl ⟨item, parseEnd, rfl, h⟩
  · rw [htext]
    refine Or.inr ⟨_, rfl, ?_⟩
    cases value with
    | nil => exact Or.inr rfl
    | cons b value =>
      left
      split
      · assumption
      · simp

/-- The NUL that `cJSON_Parse` hands over keeps it inside every string. -/
theorem parseWithOpts_inside (D : Doubles ν) {value : Bytes} (requireNullTerminated : Bool)
    (hnul : 0 ∈ value) :
    ParsedInside (value.take ((cstr value).length + 1)) requireNullTerminated
      (parseWithOpts D value requireNullTerminated) := by
  obtain ⟨-, rest, hrest⟩ := contains_of_mem hnul
  have htake := congrArg (List.take ((cstr value).length + 1)) hrest
  rw [List.take_length_add_append, List.take_succ_cons, List.take_zero] at htake
  simp only [parseWithOpts, strlen, if_pos hnul]
  apply parseWithLengthOpts_inside
  rw [htake, List.getLast?_concat]
  simp [ascii]

/-- On a text that does not end with a comma, and on every string, the parser reads and writes
nothing outside its buffers and comes to an end. -/
theorem parser_inside (D : Doubles ν) (value : Bytes) (requireNullTerminated : Bool) :
    (value.getLast? ≠ some (ascii ',') →
      ParsedInside value requireNullTerminated
        (parseWithLengthOpts D value requireNullTerminated)) ∧
    (0 ∈ value →
      ParsedInside (value.take ((cstr value).length + 1)) requireNullTerminated
        (parseWithOpts D value requireNullTerminated)) :=
  ⟨parseWithLengthOpts_inside D requireNullTerminated,
    parseWithOpts_inside D requireNullTerminated⟩

theorem parser_inside_open :
    ParsedInside (text "[1, \x7b") true (parseWithLengthOpts half (text "[1, \x7b") true) ∧
      ParsedInside (text "[1, \x7b" ++ [0]) true
        (parseWithOpts half (text "[1, \x7b" ++ [0]) true) :=
  ⟨(parser_inside half (text "[1, \x7b") true).1 (by decide),
    (parser_inside half (text "[1, \x7b" ++ [0]) true).2 (by decide)⟩

end Json
end CFunction
