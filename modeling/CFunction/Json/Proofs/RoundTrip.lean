import CFunction.Json.Proofs.Literal
import CFunction.Json.Proofs.NumberTrip

/-!
# What is printed is read back

The parser reads the text of an item, formatted or not, as the same item, except that a `double`
becomes what its text says. The item holds no raw text, which could be anything.
-/

namespace CFunction
namespace Json

open CString

variable {ν : Type} {D : Doubles ν} {content rest : Bytes} {offset : Nat}

/-! ### Items that are read back -/

mutual

/-- An item without raw text. -/
def noRaw : Item ν → Bool
  | .raw _ => false
  | .array child => noRawItems child
  | .object child => noRawMembers child
  | _ => true

def noRawItems : List (Item ν) → Bool
  | [] => true
  | item :: rest => noRaw item && noRawItems rest

def noRawMembers : List (Str × Item ν) → Bool
  | [] => true
  | (_, item) :: rest => noRaw item && noRawMembers rest

end

mutual

/-- What the text of an item is read as. -/
def reread (D : Doubles ν) : Item ν → Item ν
  | .number valuedouble => rereadNumber D valuedouble
  | .array child => .array (rereadItems D child)
  | .object child => .object (rereadMembers D child)
  | item => item

def rereadItems (D : Doubles ν) : List (Item ν) → List (Item ν)
  | [] => []
  | item :: rest => reread D item :: rereadItems D rest

def rereadMembers (D : Doubles ν) : List (Str × Item ν) → List (Str × Item ν)
  | [] => []
  | (name, item) :: rest => (name, reread D item) :: rereadMembers D rest

end

/-! ### Strings -/

theorem hexValue_hexDigit {d : Nat} (h : d < 16) : hexValue (hexDigit d) = some d := by
  have hall : ∀ d : Fin 16, hexValue (hexDigit d) = some d.val := by decide
  exact hall ⟨d, h⟩

theorem spelling_escape (c : UInt8) : Spelling (escape c).1 [c] := by
  rcases escapeKind c with ⟨-, heq, hquote, hback⟩ | ⟨-, e, he, heq⟩ | ⟨-, hcontrol, heq⟩
  · rw [heq]
    exact .plain hquote hback
  · rw [heq]
    exact .short (List.mem_cons_of_mem _ he)
  · have hhigh := hexValue_hexDigit (show c.toNat / 16 < 16 by omega)
    have hlow := hexValue_hexDigit (show c.toNat % 16 < 16 by omega)
    have hchar : (Char.ofUInt8 c).toNat = c.toNat := UInt8.toNat_toUInt32 c
    have hutf8 : String.utf8EncodeChar (Char.ofUInt8 c) = [c] := by
      have hval : (Char.ofUInt8 c).val.toNat = c.toNat := hchar
      rw [String.utf8EncodeChar, hval, if_pos (by omega), UInt8.ofNat_toNat]
    have hquad : HexQuad [ascii '0', ascii '0', hexDigit (c.toNat / 16), hexDigit (c.toNat % 16)]
        (Char.ofUInt8 c).toNat := by
      refine ⟨_, _, _, _, rfl, ?_, ?_⟩
      · intro x hx
        simp only [List.mem_cons, List.not_mem_nil, or_false] at hx
        rcases hx with rfl | rfl | rfl | rfl
        · rfl
        · rfl
        · rw [hhigh]
          rfl
        · rw [hlow]
          rfl
      · rw [hchar, hexCode, hhigh, hlow, show hexValue (ascii '0') = some 0 from rfl]
        dsimp only
        omega
    rw [heq, ← hutf8]
    exact .code hquad

theorem literal_escaped (s : Bytes) : Literal (escaped s) s := by
  induction s with
  | nil => exact .nil
  | cons c s ih => exact .cons (spelling_escape c) ih

/-- A printed string is read back. -/
theorem parseString_render (s : Str) (hdrop : content.drop offset = renderString s.val ++ rest) :
    parseString content offset = .ok (s, offset + (renderString s.val).length) := by
  have hdrop' : content.drop offset = ascii '"' :: escaped s.val ++ ascii '"' :: rest := by
    rw [hdrop, renderString_eq, List.append_assoc]
    rfl
  rw [parseString_literal (literal_escaped s.val) hdrop', Str.ofBytes_val,
    length_renderString, Nat.add_assoc]

/-! ### White space -/

/-- White space up to a character. -/
theorem skipWhitespace_eq {ws : Bytes} {c : UInt8} (hws : ∀ b ∈ ws, b ≤ 32) (hc : ¬ c ≤ 32)
    (hdrop : content.drop offset = ws ++ c :: rest) :
    skipWhitespace content offset = offset + ws.length := by
  have hlen := congrArg List.length hdrop
  rw [List.length_drop, List.length_append, List.length_cons] at hlen
  have htake : (content.drop offset).takeWhile (· ≤ 32) = ws := by
    rw [hdrop, List.takeWhile_append_of_pos fun b hb => decide_eq_true (hws b hb),
      List.takeWhile_cons_of_neg (by simpa using hc), List.append_nil]
  rw [skipWhitespace, if_pos (by omega)]
  dsimp only
  rw [htake, if_neg (by omega)]

theorem skipWhitespace_here {c : UInt8} (hc : ¬ c ≤ 32) (hdrop : content.drop offset = c :: rest) :
    skipWhitespace content offset = offset :=
  @skipWhitespace_eq content rest offset [] c (fun _ h => absurd h List.not_mem_nil) hc hdrop

theorem formatted_white {c : UInt8} (hc : c ≤ 32) (format : Bool) :
    ∀ b ∈ formatted format [c], b ≤ 32 := by
  intro b hb
  cases format with
  | false => cases hb
  | true => rwa [List.mem_singleton.1 hb]

theorem getElem?_of_drop {c : UInt8} (hdrop : content.drop offset = c :: rest) :
    content[offset]? = some c := by
  rw [← Nat.add_zero offset, ← List.getElem?_drop, hdrop]
  rfl

/-! ### The first character -/

/-- A text whose first character is not white space, no closing bracket and no byte order mark. -/
def Starts (s : Bytes) : Prop := ∃ c tl, s = c :: tl ∧ ¬ c ≤ 32 ∧ c ≠ ascii ']' ∧ c ≠ 0xEF

theorem starts_of_number {c : UInt8} (hc : c = ascii '-' ∨ isDigit c = true) :
    ¬ c ≤ 32 ∧ c ≠ ascii ']' ∧ c ≠ 0xEF := by
  rcases hc with rfl | hc
  · decide
  · simp only [isDigit, Bool.and_eq_true, decide_eq_true_eq, UInt8.le_iff_toNat_le] at hc
    have h48 : (48 : UInt8).toNat = 48 := rfl
    have h57 : (57 : UInt8).toNat = 57 := rfl
    have h32 : (32 : UInt8).toNat = 32 := rfl
    refine ⟨fun h => ?_, fun he => ?_, fun he => ?_⟩
    · rw [UInt8.le_iff_toNat_le] at h
      omega
    · have h93 : (ascii ']').toNat = 93 := rfl
      rw [he] at hc
      omega
    · have h239 : (0xEF : UInt8).toNat = 239 := rfl
      rw [he] at hc
      omega

theorem lld_head (n : Int64) :
    ∃ c tl, sprintfLld n = c :: tl ∧ (c = ascii '-' ∨ isDigit c = true) := by
  obtain ⟨ds, hne, hds, heq, -⟩ := lld_digits n
  obtain ⟨c, cs, rfl⟩ := List.exists_cons_of_ne_nil hne
  rw [heq]
  split
  · exact ⟨_, _, rfl, Or.inl rfl⟩
  · exact ⟨c, cs, rfl, Or.inr (hds c List.mem_cons_self)⟩

theorem double_head (hD : D.Sprintf) {d : ν} (hnan : D.isnan d = false)
    (hinf : D.isinf d = false) :
    ∃ c tl, sprintfDouble D d = c :: tl ∧ (c = ascii '-' ∨ isDigit c = true) := by
  rcases sprintfDouble_cases D d with ⟨hbad, -⟩ | ⟨-, precision, heq⟩
  · rw [hnan, hinf] at hbad
    cases hbad
  · rw [heq]
    exact hD.leading precision d hnan hinf

theorem starts_render (hD : D.Sprintf) {item : Item ν} (hraw : noRaw item = true) (format : Bool)
    (depth : Nat) : Starts (render D format depth item) := by
  cases item with
  | null => exact ⟨_, _, rfl, by decide⟩
  | bool b => cases b <;> exact ⟨_, _, rfl, by decide⟩
  | int n =>
    obtain ⟨c, tl, heq, hc⟩ := lld_head n
    exact ⟨c, tl, heq, starts_of_number hc⟩
  | number d =>
    rw [render]
    rcases sprintfDouble_cases D d with ⟨-, heq⟩ | ⟨⟨hnan, hinf⟩, -⟩
    · exact ⟨_, _, heq, by decide⟩
    · obtain ⟨c, tl, heq, hc⟩ := double_head hD hnan hinf
      exact ⟨c, tl, heq, starts_of_number hc⟩
  | string s => exact ⟨_, _, rfl, by decide⟩
  | raw s => cases hraw
  | array child => exact ⟨_, _, rfl, by decide⟩
  | object child => exact ⟨_, _, rfl, by decide⟩

/-! ### One value -/

/-- An item that is read back from its text, wherever that stands. -/
def ReadsBack (D : Doubles ν) (item : Item ν) : Prop :=
  ∀ content format tabDepth offset depth fuel rest,
    content.drop offset = render D format tabDepth item ++ rest → Stops rest →
    depth + item.depth ≤ nestingLimit → 3 * (content.length - offset) < fuel →
    parseValue D content fuel offset depth =
      .ok (reread D item, offset + (render D format tabDepth item).length)

theorem length_of_drop {s : Bytes} (hdrop : content.drop offset = s) :
    content.length - offset = s.length := by
  rw [← hdrop, List.length_drop]

/-- The elements of an array, from the byte in front of the first one to the bracket. -/
theorem parseElements_render (hD : D.Sprintf) {child : List (Item ν)} {format : Bool}
    {tabDepth depth fuel : Nat} {ws : Bytes} (hne : child ≠ [])
    (hraw : ∀ item ∈ child, noRaw item = true) (ih : ∀ item ∈ child, ReadsBack D item)
    (hws : ∀ b ∈ ws, b ≤ 32)
    (hdrop : content.drop (offset + 1) =
      ws ++ (renderElements D format tabDepth child ++ ascii ']' :: rest))
    (hdepth : ∀ item ∈ child, depth + item.depth ≤ nestingLimit)
    (hfuel : 3 * (content.length - offset) ≤ fuel + 1) :
    parseElements D content fuel offset depth =
      .ok (rereadItems D child,
        offset + 1 + ws.length + (renderElements D format tabDepth child).length) := by
  induction child generalizing offset ws fuel with
  | nil => exact absurd rfl hne
  | cons item more ihmore =>
    have hlen := length_of_drop hdrop
    simp only [List.length_append, List.length_cons] at hlen
    obtain ⟨n, rfl⟩ : ∃ n, fuel = n + 1 := ⟨fuel - 1, by omega⟩
    obtain ⟨c, tl, hhead, hc, -⟩ :=
      starts_render hD (hraw item List.mem_cons_self) format tabDepth
    obtain ⟨sep, hsep⟩ : ∃ sep, sep = renderElements D format tabDepth (item :: more) := ⟨_, rfl⟩
    rw [← hsep] at hdrop hlen ⊢
    rw [renderElements, List.append_assoc] at hsep
    rw [hsep, List.append_assoc, List.append_assoc] at hdrop
    have hskip : skipWhitespace content (offset + 1) = offset + 1 + ws.length := by
      rw [hhead] at hdrop
      exact skipWhitespace_eq hws hc hdrop
    have hdrop₁ := drop_add_of_drop hdrop
    have hdrop₂ := drop_add_of_drop hdrop₁
    have hlen₁ := length_of_drop hdrop₁
    have hfuel₁ : 3 * (content.length - (offset + 1 + ws.length)) < n := by omega
    rw [parseElements, hskip]
    cases more with
    | nil =>
      simp only [List.isEmpty_nil, ↓reduceIte, renderElements, List.nil_append]
        at hdrop₁ hdrop₂ hsep
      have hvalue := ih item List.mem_cons_self content format tabDepth _ depth n _ hdrop₁
        (fun x hx => by cases hx; decide) (hdepth item List.mem_cons_self) hfuel₁
      have hstay := skipWhitespace_here (by decide) hdrop₂
      simp only [hvalue, bind, Except.bind, hstay, getElem?_of_drop hdrop₂]
      rw [if_neg (by decide), hsep, List.append_nil]
      rfl
    | cons next more =>
      simp only [List.isEmpty_cons, Bool.false_eq_true, ↓reduceIte, List.cons_append]
        at hdrop₁ hdrop₂ hsep
      have hvalue := ih item List.mem_cons_self content format tabDepth _ depth n _ hdrop₁
        (fun x hx => by cases hx; decide) (hdepth item List.mem_cons_self) hfuel₁
      have hstay := skipWhitespace_here (by decide) hdrop₂
      have hblank := formatted_white (show ascii ' ' ≤ 32 by decide) format
      have hmore := ihmore (List.cons_ne_nil next more)
        (fun i hi => hraw i (List.mem_cons_of_mem item hi))
        (fun i hi => ih i (List.mem_cons_of_mem item hi)) hblank (drop_succ_of_drop hdrop₂)
        (fun i hi => hdepth i (List.mem_cons_of_mem item hi))
        (show 3 * (content.length - _) ≤ n + 1 by omega)
      simp only [hvalue, bind, Except.bind, hstay, getElem?_of_drop hdrop₂, ↓reduceIte, hmore]
      rw [hsep]
      simp only [rereadItems, List.length_append, List.length_cons]
      congr 2
      omega

theorem tabs_white (format : Bool) (depth : Nat) :
    ∀ b ∈ formatted format (tabs depth), b ≤ 32 := by
  intro b hb
  cases format with
  | false => cases hb
  | true =>
    rw [List.eq_of_mem_replicate hb]
    decide

theorem white_append {s t : Bytes} (hs : ∀ b ∈ s, b ≤ 32) (ht : ∀ b ∈ t, b ≤ 32) :
    ∀ b ∈ s ++ t, b ≤ 32 := fun b hb => (List.mem_append.1 hb).elim (hs b) (ht b)

/-- Behind the value of the last member stands white space and the brace. -/
theorem skip_lastMember {format : Bool} {depth : Nat}
    (hdrop : content.drop offset = memberEnd format true ++ (formatted format (tabs depth) ++
      ascii '\x7d' :: rest)) :
    skipWhitespace content offset =
        offset + (memberEnd format true).length + (formatted format (tabs depth)).length ∧
      content[skipWhitespace content offset]? = some (ascii '\x7d') := by
  have hwhite : ∀ b ∈ memberEnd format true ++ formatted format (tabs depth), b ≤ 32 :=
    white_append (formatted_white (show ascii '\n' ≤ 32 by decide) format) (tabs_white format depth)
  rw [← List.append_assoc] at hdrop
  have hskip := skipWhitespace_eq hwhite (by decide) hdrop
  have hbrace := getElem?_of_drop (drop_add_of_drop hdrop)
  rw [List.length_append, ← Nat.add_assoc] at hskip hbrace
  exact ⟨hskip, by rw [hskip]; exact hbrace⟩

/-- The members of an object, from the byte in front of the first one to the brace. -/
theorem parseMembers_render (hD : D.Sprintf) {child : List (Str × Item ν)} {format : Bool}
    {tabDepth closeDepth depth fuel : Nat} {ws : Bytes} (hne : child ≠ [])
    (hraw : ∀ member ∈ child, noRaw member.2 = true)
    (ih : ∀ member ∈ child, ReadsBack D member.2) (hws : ∀ b ∈ ws, b ≤ 32)
    (hdrop : content.drop (offset + 1) = ws ++ (renderMembers D format tabDepth child ++
      (formatted format (tabs closeDepth) ++ ascii '\x7d' :: rest)))
    (hdepth : ∀ member ∈ child, depth + member.2.depth ≤ nestingLimit)
    (hfuel : 3 * (content.length - offset) ≤ fuel + 1) :
    ∃ stop, parseMembers D content fuel offset depth = .ok (rereadMembers D child, stop) ∧
      stop = offset + 1 + ws.length + (renderMembers D format tabDepth child).length +
        (formatted format (tabs closeDepth)).length := by
  induction child generalizing offset ws fuel with
  | nil => exact absurd rfl hne
  | cons member more ihmore =>
    obtain ⟨name, item⟩ := member
    have hlen := length_of_drop hdrop
    simp only [List.length_append, List.length_cons] at hlen
    have htext := congrArg List.length (renderMembers_cons D format tabDepth name item more)
    simp only [List.length_append, List.length_cons] at htext
    obtain ⟨n, rfl⟩ : ∃ n, fuel = n + 1 := ⟨fuel - 1, by omega⟩
    rw [renderMembers_cons] at hdrop
    generalize (renderMembers D format tabDepth ((name, item) :: more)).length = total
      at hlen htext ⊢
    simp only [List.append_assoc] at hdrop
    -- the name
    rw [← List.append_assoc] at hdrop
    have hskip := skipWhitespace_eq (white_append hws (tabs_white format tabDepth))
      (show ¬ ascii '"' ≤ 32 by decide) hdrop
    have hdrop₁ := drop_add_of_drop hdrop
    rw [List.length_append] at hskip hdrop₁
    generalize ho₁ : offset + 1 + (ws.length + (formatted format (tabs tabDepth)).length) = o₁
      at hskip hdrop₁
    have hname := parseString_render name hdrop₁
    -- the colon
    have hdrop₂ := drop_add_of_drop hdrop₁
    generalize ho₂ : o₁ + (renderString name.val).length = o₂ at hname hdrop₂
    have hcolon := skipWhitespace_here (show ¬ ascii ':' ≤ 32 by decide) hdrop₂
    have hfound := getElem?_of_drop hdrop₂
    -- the value
    have hdrop₃ : content.drop (o₂ + 1) = formatted format [ascii '\t'] ++ _ :=
      drop_succ_of_drop hdrop₂
    have hskip₃ : skipWhitespace content (o₂ + 1) =
        o₂ + 1 + (formatted format [ascii '\t']).length := by
      obtain ⟨c, tl, hhead, hc, -⟩ :=
        starts_render hD (hraw _ List.mem_cons_self) format tabDepth
      have htab := formatted_white (show ascii '\t' ≤ 32 by decide) format
      rw [hhead] at hdrop₃
      exact skipWhitespace_eq htab hc hdrop₃
    have hdrop₄ := drop_add_of_drop hdrop₃
    generalize ho₃ : o₂ + 1 + (formatted format [ascii '\t']).length = o₃ at hskip₃ hdrop₄
    have hfuel₃ : 3 * (content.length - o₃) < n := by omega
    have hdepth₃ := hdepth _ List.mem_cons_self
    have hread := ih _ List.mem_cons_self content format tabDepth o₃ depth n
    have hdrop₅ := drop_add_of_drop hdrop₄
    rw [parseMembers, hskip]
    simp only [hname, bind, Except.bind, hcolon, hfound, ne_eq, not_true_eq_false, ↓reduceIte,
      hskip₃]
    cases more with
    | nil =>
      simp only [List.isEmpty_nil, renderMembers, List.nil_append, List.length_nil]
        at hdrop₄ hdrop₅ htext
      have hstops : Stops (memberEnd format true ++
          (formatted format (tabs closeDepth) ++ ascii '\x7d' :: rest)) := by
        cases format <;> (intro x hx; cases hx; decide)
      have hvalue := hread _ hdrop₄ hstops hdepth₃ hfuel₃
      obtain ⟨hlast, hbrace⟩ := skip_lastMember hdrop₅
      simp only [hvalue, hbrace]
      rw [if_neg (by decide)]
      refine ⟨_, rfl, ?_⟩
      rw [hlast, htext]
      omega
    | cons next more =>
      have hend : memberEnd format (next :: more).isEmpty =
          ascii ',' :: formatted format [ascii '\n'] := rfl
      rw [hend] at hdrop₄ hdrop₅ htext
      have hvalue := hread _ hdrop₄ (fun x hx => by cases hx; decide) hdepth₃ hfuel₃
      have hstay := skipWhitespace_here (by decide) hdrop₅
      have hcomma := getElem?_of_drop hdrop₅
      have hwhite := formatted_white (show ascii '\n' ≤ 32 by decide) format
      generalize ho₄ : o₃ + (render D format tabDepth item).length = o₄
        at hvalue hstay hcomma hdrop₅
      obtain ⟨stop, hmore, hstop⟩ := ihmore (List.cons_ne_nil next more)
        (fun i hi => hraw i (List.mem_cons_of_mem _ hi))
        (fun i hi => ih i (List.mem_cons_of_mem _ hi)) hwhite (drop_succ_of_drop hdrop₅)
        (fun i hi => hdepth i (List.mem_cons_of_mem _ hi))
        (show 3 * (content.length - o₄) ≤ n + 1 by omega)
      simp only [hvalue, hstay, hcomma, ↓reduceIte, hmore]
      refine ⟨stop, rfl, ?_⟩
      rw [hstop, htext, List.length_cons]
      omega

/-! ### Every item -/

theorem noRaw_of_mem {child : List (Item ν)} (h : noRawItems child = true) :
    ∀ item ∈ child, noRaw item = true := by
  induction child with
  | nil => exact fun _ hmem => absurd hmem List.not_mem_nil
  | cons item rest ih =>
    rw [noRawItems, Bool.and_eq_true] at h
    intro i hi
    rcases List.mem_cons.1 hi with rfl | hi
    · exact h.1
    · exact ih h.2 i hi

theorem noRaw_of_mem_members {child : List (Str × Item ν)} (h : noRawMembers child = true) :
    ∀ member ∈ child, noRaw member.2 = true := by
  induction child with
  | nil => exact fun _ hmem => absurd hmem List.not_mem_nil
  | cons member rest ih =>
    obtain ⟨name, item⟩ := member
    rw [noRawMembers, Bool.and_eq_true] at h
    intro i hi
    rcases List.mem_cons.1 hi with rfl | hi
    · exact h.1
    · exact ih h.2 i hi

theorem depth_le_items {child : List (Item ν)} :
    ∀ item ∈ child, item.depth ≤ Item.depthItems child := by
  induction child with
  | nil => exact fun _ hmem => absurd hmem List.not_mem_nil
  | cons item rest ih =>
    intro i hi
    rw [Item.depthItems]
    rcases List.mem_cons.1 hi with rfl | hi
    · exact Nat.le_max_left _ _
    · exact Nat.le_trans (ih i hi) (Nat.le_max_right _ _)

theorem depth_le_members {child : List (Str × Item ν)} :
    ∀ member ∈ child, member.2.depth ≤ Item.depthMembers child := by
  induction child with
  | nil => exact fun _ hmem => absurd hmem List.not_mem_nil
  | cons member rest ih =>
    obtain ⟨name, item⟩ := member
    intro i hi
    rw [Item.depthMembers]
    rcases List.mem_cons.1 hi with rfl | hi
    · exact Nat.le_max_left _ _
    · exact Nat.le_trans (ih i hi) (Nat.le_max_right _ _)

theorem wordAt_self {word : String} (hdrop : content.drop offset = text word ++ rest) :
    wordAt content offset word = true := by
  rw [wordAt, hdrop, List.isPrefixOf_iff_prefix]
  exact List.prefix_append _ _

/-- None of the three words starts with another character. -/
theorem wordAt_none {c : UInt8} (hdrop : content.drop offset = c :: rest)
    (hc : c ≠ ascii 'n' ∧ c ≠ ascii 'f' ∧ c ≠ ascii 't') :
    wordAt content offset "null" = false ∧ wordAt content offset "false" = false ∧
      wordAt content offset "true" = false := by
  have hword : ∀ {x : UInt8} (w : Bytes), c ≠ x → (x :: w).isPrefixOf (c :: rest) = false := by
    intro x w hne
    rw [List.isPrefixOf, beq_eq_false_iff_ne.2 (Ne.symm hne), Bool.false_and]
  rw [wordAt, wordAt, wordAt, hdrop]
  exact ⟨hword _ hc.1, hword _ hc.2.1, hword _ hc.2.2⟩

theorem not_word_of_number {c : UInt8} (hc : c = ascii '-' ∨ isDigit c = true) :
    c ≠ ascii 'n' ∧ c ≠ ascii 'f' ∧ c ≠ ascii 't' ∧ c ≠ ascii '"' := by
  rcases hc with rfl | hc
  · decide
  · refine ⟨?_, ?_, ?_, ?_⟩ <;> (rintro rfl; cases hc)

/-- A number is handed to `parse_number`. -/
theorem parseValue_number {c : UInt8} (hdrop : content.drop offset = c :: rest)
    (hc : c = ascii '-' ∨ isDigit c = true) (fuel depth : Nat) :
    parseValue D content (fuel + 1) offset depth = parseNumber D content offset := by
  obtain ⟨hn, hf, ht, hquote⟩ := not_word_of_number hc
  obtain ⟨hnull, hfalse, htrue⟩ := wordAt_none hdrop ⟨hn, hf, ht⟩
  have hnumber : c = ascii '+' ∨ c = ascii '-' ∨ isDigit c = true := Or.inr hc
  rw [parseValue, hnull, hfalse, htrue, getElem?_of_drop hdrop]
  simp only [Bool.false_eq_true, ↓reduceIte, if_neg hquote, if_pos hnumber]

/-- A bracket is handed to `parse_array`, and a brace to `parse_object`. -/
theorem parseValue_array (hdrop : content.drop offset = ascii '[' :: rest) (fuel depth : Nat) :
    parseValue D content (fuel + 1) offset depth = parseArray D content fuel offset depth := by
  obtain ⟨hnull, hfalse, htrue⟩ := wordAt_none hdrop (by decide)
  rw [parseValue, hnull, hfalse, htrue, getElem?_of_drop hdrop]
  rfl

theorem parseValue_object (hdrop : content.drop offset = ascii '\x7b' :: rest)
    (fuel depth : Nat) :
    parseValue D content (fuel + 1) offset depth = parseObject D content fuel offset depth := by
  obtain ⟨hnull, hfalse, htrue⟩ := wordAt_none hdrop (by decide)
  rw [parseValue, hnull, hfalse, htrue, getElem?_of_drop hdrop]
  rfl

theorem parseArray_render (hD : D.Sprintf) {child : List (Item ν)} {format : Bool}
    {tabDepth depth fuel : Nat} (hraw : ∀ item ∈ child, noRaw item = true)
    (ih : ∀ item ∈ child, ReadsBack D item)
    (hdrop : content.drop offset =
      ascii '[' :: (renderElements D format tabDepth child ++ ascii ']' :: rest))
    (hdepth : depth + (Item.depthItems child + 1) ≤ nestingLimit)
    (hfuel : 3 * (content.length - offset) ≤ fuel) :
    parseArray D content fuel offset depth =
      .ok (.array (rereadItems D child),
        offset + (renderElements D format tabDepth child).length + 2) := by
  have hlen := length_of_drop hdrop
  simp only [List.length_append, List.length_cons] at hlen
  obtain ⟨n, rfl⟩ : ∃ n, fuel = n + 1 := ⟨fuel - 1, by omega⟩
  have hdrop₁ := drop_succ_of_drop hdrop
  rw [parseArray, if_neg (by omega), byteAt_of_drop hdrop]
  simp only [bind, Except.bind, ne_eq, not_true_eq_false, ↓reduceIte]
  by_cases hnil : child = []
  · subst hnil
    rw [skipWhitespace_here (by decide) hdrop₁, getElem?_of_drop hdrop₁]
    rfl
  · obtain ⟨item, more, rfl⟩ := List.exists_cons_of_ne_nil hnil
    obtain ⟨c, tl, hhead, hc, hbracket, -⟩ :=
      starts_render hD (hraw item List.mem_cons_self) format tabDepth
    have hfirst : content.drop (offset + 1) = c :: (tl ++ ((if more.isEmpty then []
        else ascii ',' :: formatted format [ascii ' ']) ++
          (renderElements D format tabDepth more ++ ascii ']' :: rest))) := by
      rw [hdrop₁, renderElements, hhead]
      simp only [List.append_assoc, List.cons_append]
    have helements := @parseElements_render ν D content rest offset hD (item :: more) format
      tabDepth (depth + 1) n [] hnil hraw ih (fun _ h => absurd h List.not_mem_nil) hdrop₁
      (fun i hi => by
        have := depth_le_items i hi
        omega)
      (by omega)
    have hclose := getElem?_of_drop (drop_add_of_drop hdrop₁)
    rw [List.length_nil, Nat.add_zero] at helements
    rw [skipWhitespace_here hc hfirst, getElem?_of_drop hfirst]
    simp only [if_neg hbracket, Nat.add_sub_cancel, helements, hclose, ↓reduceIte]
    congr 2
    omega

/-- The loop over the members sees only what is behind the white space. -/
theorem parseMembers_congr {a b : Nat}
    (h : skipWhitespace content (a + 1) = skipWhitespace content (b + 1)) (fuel depth : Nat) :
    parseMembers D content fuel a depth = parseMembers D content fuel b depth := by
  cases fuel with
  | zero => rw [parseMembers, parseMembers]
  | succ fuel => rw [parseMembers, parseMembers, h]

theorem parseObject_render (hD : D.Sprintf) {child : List (Str × Item ν)} {format : Bool}
    {tabDepth depth fuel : Nat} (hraw : ∀ member ∈ child, noRaw member.2 = true)
    (ih : ∀ member ∈ child, ReadsBack D member.2)
    (hdrop : content.drop offset =
      ascii '\x7b' :: (formatted format [ascii '\n'] ++
        (renderMembers D format (tabDepth + 1) child ++
        (formatted format (tabs tabDepth) ++ ascii '\x7d' :: rest))))
    (hdepth : depth + (Item.depthMembers child + 1) ≤ nestingLimit)
    (hfuel : 3 * (content.length - offset) ≤ fuel) :
    ∃ stop, parseObject D content fuel offset depth = .ok (.object (rereadMembers D child), stop) ∧
      stop = offset + (formatted format [ascii '\n']).length +
        (renderMembers D format (tabDepth + 1) child).length +
          (formatted format (tabs tabDepth)).length + 2 := by
  have hlen := length_of_drop hdrop
  simp only [List.length_append, List.length_cons] at hlen
  obtain ⟨n, rfl⟩ : ∃ n, fuel = n + 1 := ⟨fuel - 1, by omega⟩
  have hdrop₁ := drop_succ_of_drop hdrop
  have hnewline := formatted_white (show ascii '\n' ≤ 32 by decide) format
  rw [parseObject, if_neg (by omega), getElem?_of_drop hdrop, if_neg (not_not_intro rfl)]
  dsimp only
  by_cases hnil : child = []
  · subst hnil
    rw [renderMembers, List.nil_append, ← List.append_assoc] at hdrop₁
    have hskip := skipWhitespace_eq (white_append hnewline (tabs_white format tabDepth))
      (by decide) hdrop₁
    have hbrace := getElem?_of_drop (drop_add_of_drop hdrop₁)
    rw [hskip, hbrace]
    refine ⟨_, rfl, ?_⟩
    rw [renderMembers, List.length_append, List.length_nil]
    omega
  · obtain ⟨member, more, rfl⟩ := List.exists_cons_of_ne_nil hnil
    obtain ⟨name, item⟩ := member
    obtain ⟨stop, hmembers, hstop⟩ := @parseMembers_render ν D content rest offset hD
      ((name, item) :: more) format (tabDepth + 1) tabDepth (depth + 1) n _ hnil hraw ih hnewline
      hdrop₁
      (fun i hi => by
        have := depth_le_members i hi
        omega)
      (by omega)
    have hbrace := getElem?_of_drop (drop_add_of_drop (drop_add_of_drop (drop_add_of_drop hdrop₁)))
    rw [renderMembers_cons] at hdrop₁
    simp only [List.append_assoc] at hdrop₁
    rw [← List.append_assoc] at hdrop₁
    have hskip := skipWhitespace_eq (white_append hnewline (tabs_white format (tabDepth + 1)))
      (show ¬ ascii '"' ≤ 32 by decide) hdrop₁
    have hquote := drop_add_of_drop hdrop₁
    have hstay := skipWhitespace_here (show ¬ ascii '"' ≤ 32 by decide) hquote
    rw [← hskip] at hquote hstay
    have hpos := le_skipWhitespace content (offset + 1)
    have hsame : skipWhitespace content (skipWhitespace content (offset + 1) - 1 + 1) =
        skipWhitespace content (offset + 1) := by
      rw [Nat.sub_add_cancel (by omega), hstay]
    rw [getElem?_of_drop hquote]
    simp only [parseMembers_congr hsame, hmembers, bind, Except.bind]
    rw [← hstop] at hbrace
    rw [if_neg (by decide), if_pos hbrace]
    exact ⟨stop + 1, rfl, by omega⟩

theorem readsBack (hD : D.Sprintf) (item : Item ν) (hraw : noRaw item = true) :
    ReadsBack D item := by
  induction item using Item.ind with
  | null =>
    intro content format tabDepth offset depth fuel rest hdrop _ _ hfuel
    obtain ⟨n, rfl⟩ : ∃ n, fuel = n + 1 := ⟨fuel - 1, by omega⟩
    rw [parseValue, wordAt_self hdrop]
    rfl
  | bool b =>
    intro content format tabDepth offset depth fuel rest hdrop _ _ hfuel
    obtain ⟨n, rfl⟩ : ∃ n, fuel = n + 1 := ⟨fuel - 1, by omega⟩
    have hnull : wordAt content offset "null" = false := by
      cases b <;> (rw [wordAt, hdrop]; rfl)
    cases b with
    | true =>
      have hfalse : wordAt content offset "false" = false := by
        rw [wordAt, hdrop]
        rfl
      have htrue : wordAt content offset "true" = true := wordAt_self hdrop
      rw [parseValue, hnull, hfalse, htrue]
      rfl
    | false =>
      have hfalse : wordAt content offset "false" = true := wordAt_self hdrop
      rw [parseValue, hnull, hfalse]
      rfl
  | int n =>
    intro content format tabDepth offset depth fuel rest hdrop hrest _ hfuel
    obtain ⟨m, rfl⟩ : ∃ m, fuel = m + 1 := ⟨fuel - 1, by omega⟩
    obtain ⟨c, tl, heq, hc⟩ := lld_head n
    have hhead : content.drop offset = c :: (tl ++ rest) := by
      rw [hdrop, render, heq]
      rfl
    rw [parseValue_number hhead hc, parseNumber_lld D n hrest hdrop]
    rfl
  | number d =>
    intro content format tabDepth offset depth fuel rest hdrop hrest _ hfuel
    obtain ⟨m, rfl⟩ : ∃ m, fuel = m + 1 := ⟨fuel - 1, by omega⟩
    rcases sprintfDouble_cases D d with ⟨hbad, heq⟩ | ⟨⟨hnan, hinf⟩, -⟩
    · have hnull : wordAt content offset "null" = true := by
        rw [render, heq] at hdrop
        exact wordAt_self hdrop
      rw [parseValue, hnull, reread, rereadNumber, if_pos hbad, render, heq]
      rfl
    · obtain ⟨c, tl, heq, hc⟩ := double_head hD hnan hinf
      have hhead : content.drop offset = c :: (tl ++ rest) := by
        rw [hdrop, render, heq]
        rfl
      rw [parseValue_number hhead hc, parseNumber_double hD hnan hinf hrest hdrop]
      rfl
  | string s =>
    intro content format tabDepth offset depth fuel rest hdrop _ _ hfuel
    obtain ⟨n, rfl⟩ : ∃ n, fuel = n + 1 := ⟨fuel - 1, by omega⟩
    obtain ⟨hnull, hfalse, htrue⟩ := wordAt_none hdrop (by decide)
    rw [parseValue, hnull, hfalse, htrue, getElem?_of_drop hdrop]
    simp only [Bool.false_eq_true, ↓reduceIte, parseString_render s hdrop, bind, Except.bind]
    rfl
  | raw s => cases hraw
  | array child ih =>
    intro content format tabDepth offset depth fuel rest hdrop _ hdepth hfuel
    obtain ⟨n, rfl⟩ : ∃ n, fuel = n + 1 := ⟨fuel - 1, by omega⟩
    have hchild := noRaw_of_mem hraw
    rw [render, List.append_assoc, List.singleton_append, List.cons_append] at hdrop
    rw [parseValue_array hdrop, parseArray_render hD hchild (fun i hi => ih i hi (hchild i hi))
      hdrop
      hdepth (by omega)]
    rw [reread, render, List.length_append, List.length_cons, List.length_singleton]
    rfl
  | object child ih =>
    intro content format tabDepth offset depth fuel rest hdrop _ hdepth hfuel
    obtain ⟨n, rfl⟩ : ∃ n, fuel = n + 1 := ⟨fuel - 1, by omega⟩
    have hchild := noRaw_of_mem_members hraw
    rw [render] at hdrop
    simp only [List.append_assoc, List.cons_append, List.nil_append] at hdrop
    obtain ⟨stop, hparse, hstop⟩ := parseObject_render hD hchild
      (fun i hi => ih i hi (hchild i hi)) hdrop hdepth (show _ ≤ n by omega)
    rw [parseValue_object hdrop, hparse, hstop, reread, render]
    simp only [List.length_append, List.length_cons, List.length_nil]
    congr 2
    omega

/-! ### The calls -/

/-- The NUL at the end of a text is not skipped, although it counts as white space. -/
theorem skipWhitespace_last (hdrop : content.drop offset = [0]) :
    skipWhitespace content offset = offset := by
  have hlen := length_of_drop hdrop
  rw [List.length_singleton] at hlen
  have htake : (content.drop offset).takeWhile (· ≤ 32) = [0] := by
    rw [hdrop]
    rfl
  rw [skipWhitespace, if_pos (by omega)]
  dsimp only
  rw [htake, List.length_singleton, if_pos (by omega)]
  omega

/-- A value that takes the whole of a string is what the calls give. -/
theorem parseWithOpts_of_value {t : Bytes} {item : Item ν} (hstarts : Starts t) (hnul : 0 ∉ t)
    (hvalue : parseValue D (t ++ [0]) (parseFuel (t ++ [0])) 0 0 = .ok (item, t.length))
    (behind : Bytes) (requireNullTerminated : Bool) :
    parseWithOpts D (t ++ 0 :: behind) requireNullTerminated = .ok (item, t.length) := by
  obtain ⟨c, tl, hhead, hc, -, hbom⟩ := hstarts
  have hlen := strlen_append_nul behind hnul
  have htake : (t ++ 0 :: behind).take (t.length + 1) = t ++ [0] := by
    rw [List.take_length_add_append]
    rfl
  have hstart : skipUtf8Bom (t ++ [0]) = 0 := by
    refine if_neg fun h => ?_
    rw [hhead, List.cons_append, List.cons_prefix_cons] at h
    exact hbom h.2.1.symm
  have hskip : skipWhitespace (t ++ [0]) 0 = 0 := by
    have hdrop : (t ++ [0]).drop 0 = c :: (tl ++ [0]) := by
      rw [hhead]
      rfl
    exact skipWhitespace_here hc hdrop
  have hlast : (t ++ [0]).drop t.length = [0] := List.drop_left
  simp only [parseWithOpts, hlen, htake, parseWithLengthOpts]
  rw [parseText, if_neg (by simp)]
  cases requireNullTerminated with
  | true =>
    simp only [hstart, hskip, hvalue, bind, Except.bind, skipWhitespace_last hlast,
      getElem?_of_drop hlast, ↓reduceIte]
  | false =>
    simp only [hstart, hskip, hvalue, bind, Except.bind, Bool.false_eq_true, ↓reduceIte]

theorem parseWithOpts_render (hD : D.Sprintf) {item : Item ν} (hraw : noRaw item = true)
    (hdepth : item.depth ≤ nestingLimit) (format : Bool) (behind : Bytes)
    (requireNullTerminated : Bool) :
    parseWithOpts D (render D format 0 item ++ 0 :: behind) requireNullTerminated =
      .ok (reread D item, (render D format 0 item).length) := by
  have hread := readsBack hD item hraw (render D format 0 item ++ [0]) format 0 0 0
    (parseFuel (render D format 0 item ++ [0])) [0] rfl (fun x hx => by cases hx; decide)
    (by rwa [Nat.zero_add]) (by simp only [parseFuel]; omega)
  rw [Nat.zero_add] at hread
  exact parseWithOpts_of_value (starts_render hD hraw format 0)
    (zero_notMem_render hD format item 0) hread behind requireNullTerminated

/-- `cJSON_Parse` reads every string literal, short escapes and UTF-16 escapes included, as the
bytes that it stands for in UTF-8, up to a NUL among them. -/
theorem parse_literal (D : Doubles ν) {s v : Bytes} (h : Literal s v) (hnul : 0 ∉ s)
    (behind : Bytes) (requireNullTerminated : Bool) :
    parseWithOpts D (ascii '"' :: s ++ ascii '"' :: 0 :: behind) requireNullTerminated =
      .ok (.string (Str.ofBytes v), s.length + 2) := by
  have htext : ascii '"' :: s ++ ascii '"' :: 0 :: behind =
      (ascii '"' :: s ++ [ascii '"']) ++ 0 :: behind := by
    simp
  have hnul' : (0 : UInt8) ∉ ascii '"' :: s ++ [ascii '"'] := by
    simp only [List.mem_append, List.mem_cons, List.not_mem_nil, or_false, not_or]
    exact ⟨⟨by decide, hnul⟩, by decide⟩
  have hdrop : (ascii '"' :: s ++ [ascii '"'] ++ [0]).drop 0 =
      ascii '"' :: s ++ ascii '"' :: [0] := by
    simp
  have hvalue : parseValue D (ascii '"' :: s ++ [ascii '"'] ++ [0])
      (parseFuel (ascii '"' :: s ++ [ascii '"'] ++ [0])) 0 0 =
        .ok (.string (Str.ofBytes v), (ascii '"' :: s ++ [ascii '"']).length) := by
    obtain ⟨hnull, hfalse, htrue⟩ := wordAt_none hdrop (by decide)
    rw [parseFuel, parseValue, hnull, hfalse, htrue, getElem?_of_drop hdrop]
    simp only [Bool.false_eq_true, ↓reduceIte, parseString_literal h hdrop, bind, Except.bind,
      List.length_append, List.length_cons, List.length_nil]
    congr 2
    omega
  have hstarts : Starts (ascii '"' :: s ++ [ascii '"']) := ⟨_, _, rfl, by decide⟩
  rw [htext, parseWithOpts_of_value hstarts hnul' hvalue, List.length_append, List.length_cons]
  rfl

/-- `"\u00e9\n"` is read as the two bytes of the letter and a line feed. -/
theorem parse_literal_e_acute :
    parseWithOpts half (text "\"\\u00e9\\n\"" ++ [0]) true =
      .ok (.string (Str.ofBytes [0xC3, 0xA9, 10]), 10) := by
  have hquad : HexQuad (text "00e9") (Char.ofNat 0xE9).toNat :=
    ⟨_, _, _, _, rfl,
      List.all_eq_true.1 (rfl : (text "00e9").all (fun x => (hexValue x).isSome) = true), rfl⟩
  have hliteral : Literal (text "\\u00e9\\n") ([0xC3, 0xA9] ++ [10]) :=
    .cons (.code hquad) (.cons (.short (by decide)) .nil)
  exact parse_literal half hliteral (by decide) [] true

end Json
end CFunction
