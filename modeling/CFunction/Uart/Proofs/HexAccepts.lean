import CFunction.Uart.Proofs.HexRuns

/-!
# The lines that the hex input accepts

What the program makes of a whole line, from what its loop does: the line that the program itself
would print is read back, and the lines on which nothing but pairs of digits is accepted are
exactly described.
-/

namespace CFunction
namespace HexInput

open CString

variable {lead text line behind gap : Bytes} {c : UInt8} {fuel : Nat}

/-- The line begins with one character that has white space behind it. -/
def FrontSingle (line : Bytes) : Prop :=
  ∃ a c more, line = a :: c :: more ∧ isspace a = false ∧ isspace c = true

/-! ### The first token -/

theorem two_le_of_not_frontSingle (h : ¬ FrontSingle (lead ++ text)) (hlead : lead = [])
    {t more : Bytes} (htext : text = t ++ c :: more) (hne : t ≠ [])
    (ht : ∀ x ∈ t, isspace x = false) (hc : isspace c = true) : 2 ≤ t.length := by
  obtain ⟨a, t, rfl⟩ := List.exists_cons_of_ne_nil hne
  cases t with
  | nil =>
    subst hlead htext
    exact absurd ⟨a, c, more, rfl, ht a List.mem_cons_self, hc⟩ h
  | cons b t => exact Nat.le_add_left _ _

/-- From the first token on, unless it is one character with which the line begins or ends. -/
theorem hexLoop_first (hlead : ∀ x ∈ lead, isspace x = true)
    (htext : ∀ d, text.head? = some d → isspace d = false) (hfront : ¬ FrontSingle (lead ++ text))
    (hone : text.length ≠ 1) (hlen : (lead ++ text).length ≤ 511) (hfuel : text.length ≤ fuel) :
    Reads (lead ++ text ++ 0 :: behind) (lead ++ text).length (fuel + 1) lead.length [] text
      behind := by
  rcases exists_closed_token htext with hall | ⟨t, c, g, more, heq, hne, ht, hc, hg, hmore⟩
  · rcases Nat.lt_or_ge text.length 2 with hlt | htwo
    · have hnil : text = [] := List.eq_nil_of_length_eq_zero
        ((Nat.le_one_iff_eq_zero_or_eq_one.1 (Nat.le_of_lt_succ hlt)).resolve_right hone)
      have hend : (lead ++ text).length = lead.length := by rw [hnil, List.append_nil]
      exact Reads.done hall (Nat.le_of_lt_succ hlt) (Int.ofNat_le.2 (Nat.le_of_eq hend))
    · have hstart : ((lead ++ []).length : Int) < (lead ++ text).length := by
        simp only [List.append_nil, List.length_append]
        omega
      have hsingle : Reads (lead ++ ([] ++ text) ++ 0 :: behind) (lead ++ text).length (fuel + 1)
          (lead ++ []).length [] ([] ++ text) behind := Reads.single hall hstart htwo
      rw [List.append_nil] at hsingle
      exact hsingle
  · have hspace : ∀ s, lead.getLast? = some s → isspace s = true :=
      fun s hs => hlead s (List.mem_of_getLast? hs)
    have hpre : lead = [] → 2 ≤ ([] ++ t).length :=
      fun hnil => two_le_of_not_frontSingle hfront hnil heq hne ht hc
    have hread : Reads (lead ++ text ++ 0 :: behind) (lead ++ text).length (fuel + 1)
        (lead ++ []).length [] text behind :=
      (readsLine behind fuel).token heq hne ht hc hg hmore hpre hspace hfuel hlen (Nat.zero_le _)
    rw [List.append_nil] at hread
    exact hread

/-! ### The whole line -/

/-- The length of the line and the white space in front of it. -/
theorem hexInput_eq (hnul : 0 ∉ lead ++ text) (hlead : ∀ x ∈ lead, isspace x = true)
    (htext : ∀ d, text.head? = some d → isspace d = false) (behind : Bytes) :
    hexInput (lead ++ text ++ 0 :: behind) =
      (hexLoop (lead ++ text ++ 0 :: behind) (lead ++ text).length
        ((lead ++ text ++ 0 :: behind).length + 1) lead.length []).bind fun (i, txBufTmp) =>
          if i < (lead ++ text).length ∨ txBufTmp.length = 0 then some none
          else some (some txBufTmp) := by
  have hscan : scan true (lead ++ text ++ 0 :: behind)
      ((lead ++ text ++ 0 :: behind).length + 1) 0 = some (lead.length : Int) := by
    obtain ⟨d, more, hmore, hd⟩ := exists_head htext behind
    have hnot : isspace d ≠ true := Bool.eq_false_iff.1 hd
    rw [List.append_assoc, hmore]
    apply scan_stop hlead hnot more []
    rw [List.length_append]
    exact Nat.lt_succ_of_le (Nat.le_add_right _ _)
  rw [hexInput, strlen_append_nul behind hnul, Option.bind_eq_bind, Option.bind_some, hscan]
  rfl

/-- White space in front of the text does not change what is read of it. -/
theorem Reads.append {txBuf txBufTmp : Bytes} {len i : Int}
    (h : Reads txBuf len fuel i txBufTmp text behind) (hlead : ∀ x ∈ lead, isspace x = true) :
    Reads txBuf len fuel i txBufTmp (lead ++ text) behind := by
  have hclosed : closedTokens (lead ++ text) = closedTokens text := Tokens.closed_append hlead text
  have hlast : lastPiece (lead ++ text) = lastPiece text := Tokens.rest_append hlead text
  refine ⟨?_, ?_, ?_⟩
  · rw [hclosed]
    exact h.rejects
  · rw [hclosed, hlast]
    exact h.accepts
  · rw [hclosed, hlast]
    exact h.leaves

/-- The program on a line, by its loop. -/
theorem exists_reads (hnul : 0 ∉ line) (hlen : line.length ≤ 511) (hfront : ¬ FrontSingle line)
    (hone : closedTokens line = [] → (lastPiece line).length ≠ 1) (behind : Bytes) :
    ∃ fuel i, Reads (line ++ 0 :: behind) line.length fuel i [] line behind ∧
      hexInput (line ++ 0 :: behind) =
        (hexLoop (line ++ 0 :: behind) line.length fuel i []).bind fun (i, txBufTmp) =>
          if i < line.length ∨ txBufTmp.length = 0 then some none else some (some txBufTmp) := by
  obtain ⟨lead, text, rfl, hlead, htext⟩ := Tokens.exists_lead isspace line
  have hlength : text.length ≠ 1 := by
    intro h
    obtain ⟨x, rfl⟩ := List.length_eq_one_iff.1 h
    have hx : ∀ y ∈ [x], isspace y = false := by
      intro y hy
      rw [List.mem_singleton.1 hy]
      exact htext x rfl
    apply hone
    · rw [closedTokens, Tokens.closed_append hlead]
      exact closedTokens_single hx
    · rw [lastPiece, Tokens.rest_append hlead, Tokens.rest_of_all_not hx]
      rfl
  have hfuel : text.length ≤ (lead ++ text ++ 0 :: behind).length := by
    simp only [List.length_append]
    omega
  exact ⟨_, _, (hexLoop_first hlead htext hfront hlength hlen hfuel).append hlead,
    hexInput_eq hnul hlead htext behind⟩

theorem lastPiece_short (h : lastPiece line = []) : (lastPiece line).length ≤ 1 := by
  rw [h]
  exact Nat.zero_le 1

/-- A token that does not end in two digits is an input error. -/
theorem hexInput_rejects (hnul : 0 ∉ line) (hlen : line.length ≤ 511) (hfront : ¬ FrontSingle line)
    (h : ∃ t ∈ closedTokens line, ¬ EndsInPair t) (behind : Bytes) :
    hexInput (line ++ 0 :: behind) = some none := by
  have hone : closedTokens line = [] → (lastPiece line).length ≠ 1 := by
    intro hnil
    obtain ⟨t, hmem, -⟩ := h
    rw [hnil] at hmem
    exact absurd hmem List.not_mem_nil
  obtain ⟨fuel, i, hreads, heq⟩ := exists_reads hnul hlen hfront hone behind
  obtain ⟨e, txBufTmp, hrun, he⟩ := hreads.rejects h
  rw [heq, hrun, Option.bind_some]
  exact if_pos (Or.inl he)

/-- Pairs at the ends of the tokens are what is accepted, if they are all read. -/
theorem hexInput_accepts (hnul : 0 ∉ line) (hlen : line.length ≤ 511) (hfront : ¬ FrontSingle line)
    (hall : ∀ t ∈ closedTokens line, EndsInPair t) (hne : closedTokens line ≠ [])
    (hlast : (lastPiece line).length ≤ 1) (behind : Bytes) :
    hexInput (line ++ 0 :: behind) = some (some ((closedTokens line).map pairValue)) := by
  obtain ⟨fuel, i, hreads, heq⟩ := exists_reads hnul hlen hfront (fun h => absurd h hne) behind
  obtain ⟨e, hrun, he⟩ := hreads.accepts hall hlast
  rw [heq, hrun, Option.bind_some, List.nil_append]
  apply if_neg
  intro h
  rcases h with h | h
  · exact absurd he (Int.not_le.2 h)
  · rw [List.length_map] at h
    exact hne (List.eq_nil_of_length_eq_zero h)

/-- A line of white space is an input error. -/
theorem hexInput_blank (hnul : 0 ∉ line) (hlen : line.length ≤ 511) (hfront : ¬ FrontSingle line)
    (hclosed : closedTokens line = []) (hlast : lastPiece line = []) (behind : Bytes) :
    hexInput (line ++ 0 :: behind) = some none := by
  have hone : closedTokens line = [] → (lastPiece line).length ≠ 1 := by
    intro _ h
    rw [hlast] at h
    exact absurd h (Nat.zero_ne_one)
  obtain ⟨fuel, i, hreads, heq⟩ := exists_reads hnul hlen hfront hone behind
  obtain ⟨e, hrun, -⟩ := hreads.accepts (fun t ht => by
    rw [hclosed] at ht
    exact absurd ht List.not_mem_nil) (lastPiece_short hlast)
  rw [heq, hrun, Option.bind_some, hclosed]
  exact if_pos (Or.inr rfl)

/-- One piece without white space behind it: the loop runs over the NUL. -/
theorem hexInput_open (hnul : 0 ∉ line) (hclosed : closedTokens line = [])
    (hlast : lastPiece line ≠ []) : hexInput (line ++ [0]) = none := by
  obtain ⟨lead, text, rfl, hlead, htext⟩ := Tokens.exists_lead isspace line
  rcases exists_closed_token htext with hall | ⟨t, c, g, more, rfl, hne, ht, hc, hg, hmore⟩
  · have hpos : 0 < text.length := by
      rw [lastPiece, Tokens.rest_append hlead, Tokens.rest_of_all_not hall] at hlast
      exact List.length_pos_of_ne_nil hlast
    have hstart : (lead.length : Int) < (lead ++ text).length := by
      rw [List.length_append]
      omega
    have hleaves : ∀ fuel, hexLoop (lead ++ text ++ [0]) (lead ++ text).length fuel lead.length [] =
        none := by
      intro fuel
      rw [List.append_assoc]
      exact hexLoop_leaves (not_isspace_concat_nul hall) hstart
    rw [hexInput_eq hnul hlead htext [], hleaves]
    rfl
  · rw [closedTokens, Tokens.closed_append hlead, Tokens.closed_append_cons ht hne hc] at hclosed
    exact absurd hclosed (List.cons_ne_nil _ _)

/-- A last piece of two or more characters: the loop runs over the NUL. -/
theorem hexInput_leaves (hnul : 0 ∉ line) (hlen : line.length ≤ 511) (hfront : ¬ FrontSingle line)
    (hall : ∀ t ∈ closedTokens line, EndsInPair t) (hlast : 2 ≤ (lastPiece line).length) :
    hexInput (line ++ [0]) = none := by
  have hone : closedTokens line = [] → (lastPiece line).length ≠ 1 :=
    fun _ h => absurd hlast (by rw [h]; exact Nat.not_succ_le_self 1)
  obtain ⟨fuel, i, hreads, heq⟩ := exists_reads hnul hlen hfront hone []
  rw [heq, hreads.leaves hall hlast rfl]
  rfl

/-- One character at the beginning of the line: the byte in front of the line is read. -/
theorem hexInput_front (hnul : 0 ∉ line) (hfront : FrontSingle line) (behind : Bytes) :
    hexInput (line ++ 0 :: behind) = none := by
  obtain ⟨a, c, more, rfl, ha, hc⟩ := hfront
  have htoken : ∀ x ∈ [] ++ [a], isspace x = false := by
    intro x hx
    rw [List.mem_singleton.1 hx]
    exact ha
  have hlead : ∀ x ∈ ([] : Bytes), isspace x = true := fun x hx => absurd hx List.not_mem_nil
  have htext : ∀ d, (a :: c :: more).head? = some d → isspace d = false := by
    intro d hd
    rw [← Option.some.inj hd]
    exact ha
  have hrun : ∀ fuel, hexLoop (a :: c :: more ++ 0 :: behind) (a :: c :: more).length (fuel + 1) 0
      [] = none := by
    intro fuel
    show hexLoop ([] ++ [a] ++ c :: (more ++ 0 :: behind)) _ _ (([] : Bytes).length : Int) [] = none
    exact hexLoop_front rfl htoken hc (Int.natCast_pos.2 (Nat.succ_pos _))
  have heq := hexInput_eq hnul hlead htext behind
  rw [List.nil_append] at heq
  rw [heq, List.length_nil, Int.natCast_zero, hrun]
  rfl

/-! ### What the program prints is read back -/

/-- A line of printed bytes, with white space in front of them and behind each of them. -/
def hexLine (lead : Bytes) (items : List (UInt8 × Bytes)) : Bytes :=
  lead ++ items.flatMap (fun item => hexOutput item.1 ++ item.2) ++ [ascii '\n']

/-- The two digits of a printed byte. -/
def hexDigits (b : UInt8) : Bytes := [hexDigit (b.toNat / 16), hexDigit (b.toNat % 16)]

theorem hexOutput_eq (b : UInt8) : hexOutput b = hexDigits b ++ [32] := rfl

theorem hexDigit_spec (n : Fin 16) :
    isxdigit (hexDigit n) = true ∧ isspace (hexDigit n) = false := by
  revert n
  decide

theorem hexDigits_spec (b : UInt8) : ∃ x y, hexDigits b = [x, y] ∧
    (isxdigit x = true ∧ isspace x = false) ∧ isxdigit y = true ∧ isspace y = false := by
  have hhigh : b.toNat / 16 < 16 := Nat.div_lt_of_lt_mul b.toNat_lt
  exact ⟨_, _, rfl, hexDigit_spec ⟨_, hhigh⟩, hexDigit_spec ⟨_, Nat.mod_lt _ (by decide)⟩⟩

theorem endsInPair_hexDigits (b : UInt8) : EndsInPair (hexDigits b) := by
  obtain ⟨x, y, heq, hx, hy⟩ := hexDigits_spec b
  exact ⟨[], x, y, heq, hx.1, hy.1⟩

theorem not_isspace_hexDigits (b : UInt8) : ∀ x ∈ hexDigits b, isspace x = false := by
  obtain ⟨x, y, heq, hx, hy⟩ := hexDigits_spec b
  rw [heq]
  intro z hz
  rcases List.mem_cons.1 hz with rfl | hz
  · exact hx.2
  · rw [List.mem_singleton.1 hz]
    exact hy.2

theorem digitValue_hexDigit (n : Fin 16) : digitValue (hexDigit n) = n := by
  revert n
  decide

theorem strtolHex_hexDigits (b : UInt8) : strtolHex (hexDigits b) = b.toNat := by
  have hhigh : digitValue (hexDigit (b.toNat / 16)) = b.toNat / 16 :=
    digitValue_hexDigit ⟨_, Nat.div_lt_of_lt_mul b.toNat_lt⟩
  have hlow : digitValue (hexDigit (b.toNat % 16)) = b.toNat % 16 :=
    digitValue_hexDigit ⟨_, Nat.mod_lt _ (Nat.succ_pos 15)⟩
  have hall : (hexDigits b).takeWhile isxdigit = hexDigits b := by
    obtain ⟨x, y, heq, hx, hy⟩ := hexDigits_spec b
    rw [heq, List.takeWhile_cons_of_pos hx.1, List.takeWhile_cons_of_pos hy.1, List.takeWhile_nil]
  rw [strtolHex, hall, hexDigits]
  simp only [List.foldl_cons, List.foldl_nil, hhigh, hlow, Nat.mul_zero, Nat.zero_add]
  exact Nat.div_add_mod b.toNat 16

theorem pairValue_hexDigits (b : UInt8) : pairValue (hexDigits b) = b := by
  show UInt8.ofNat (strtolHex (hexDigits b) &&& 0xFF) = b
  rw [strtolHex_hexDigits, Nat.and_two_pow_sub_one_eq_mod b.toNat 8, Nat.mod_eq_of_lt b.toNat_lt,
    UInt8.ofNat_toNat]

variable {items : List (UInt8 × Bytes)}

/-- The tokens of the printed line are the digits of its bytes. -/
theorem tokens_hexLine (hlead : ∀ x ∈ lead, isspace x = true)
    (hgap : ∀ item ∈ items, ∀ x ∈ item.2, isspace x = true) :
    closedTokens (hexLine lead items) = items.map (fun item => hexDigits item.1) ∧
      lastPiece (hexLine lead items) = [] := by
  rw [hexLine, List.append_assoc, closedTokens, lastPiece, Tokens.closed_append hlead,
    Tokens.rest_append hlead]
  induction items with
  | nil => exact ⟨rfl, rfl⟩
  | cons item items ih =>
    obtain ⟨hclosed, hlast⟩ := ih fun item' h => hgap item' (List.mem_cons_of_mem item h)
    have hitem := hgap item List.mem_cons_self
    have hsplit : (item :: items).flatMap (fun item => hexOutput item.1 ++ item.2) ++ [ascii '\n'] =
        hexDigits item.1 ++ 32 :: (item.2 ++
          (items.flatMap (fun item => hexOutput item.1 ++ item.2) ++ [ascii '\n'])) := by
      simp only [List.flatMap_cons, hexOutput_eq, List.append_assoc, List.cons_append,
        List.nil_append]
    rw [hsplit, Tokens.closed_append_cons (not_isspace_hexDigits _) (List.cons_ne_nil _ _) rfl,
      Tokens.closed_append hitem, Tokens.rest_append_cons (not_isspace_hexDigits _) rfl,
      Tokens.rest_append hitem, hclosed, hlast]
    exact ⟨rfl, rfl⟩

theorem nul_not_mem_hexLine (hlead : ∀ x ∈ lead, isspace x = true)
    (hgap : ∀ item ∈ items, ∀ x ∈ item.2, isspace x = true) : 0 ∉ hexLine lead items := by
  have hspace : ∀ s : Bytes, (∀ x ∈ s, isspace x = true) → 0 ∉ s := fun s hs h =>
    Bool.false_ne_true (not_isspace_nul.symm.trans (hs 0 h))
  have hdigits : ∀ b, 0 ∉ hexDigits b := by
    intro b h
    obtain ⟨x, y, heq, hx, hy⟩ := hexDigits_spec b
    rw [heq] at h
    rcases List.mem_cons.1 h with rfl | h
    · exact absurd hx.1 (by decide)
    · rw [← List.mem_singleton.1 h] at hy
      exact absurd hy.1 (by decide)
  intro h
  simp only [hexLine, List.mem_append, List.mem_flatMap] at h
  rcases h with (h | ⟨item, hmem, h | h⟩) | h
  · exact hspace lead hlead h
  · rcases List.mem_append.1 (hexOutput_eq item.1 ▸ h) with h | h
    · exact hdigits _ h
    · exact absurd h (by decide)
  · exact hspace item.2 (hgap item hmem) h
  · exact absurd h (by decide)

theorem not_frontSingle_hexLine (hlead : ∀ x ∈ lead, isspace x = true) :
    ¬ FrontSingle (hexLine lead items) := by
  intro h
  obtain ⟨a, c, more, heq, ha, hc⟩ := h
  cases lead with
  | cons x lead =>
    obtain ⟨rfl, -⟩ := List.cons.inj heq
    exact Bool.false_ne_true (ha.symm.trans (hlead x List.mem_cons_self))
  | nil =>
    cases items with
    | nil =>
      obtain ⟨rfl, -⟩ := List.cons.inj heq
      exact absurd ha (by decide)
    | cons item items =>
      obtain ⟨x, y, hdigits, -, -, hy⟩ := hexDigits_spec item.1
      have hline : hexLine [] (item :: items) = x :: y :: 32 :: (item.2 ++
          (items.flatMap (fun item => hexOutput item.1 ++ item.2) ++ [ascii '\n'])) := by
        simp only [hexLine, List.flatMap_cons, hexOutput_eq, hdigits, List.append_assoc,
          List.cons_append, List.nil_append]
      obtain ⟨-, htail⟩ := List.cons.inj (hline.symm.trans heq)
      obtain ⟨rfl, -⟩ := List.cons.inj htail
      exact Bool.false_ne_true (hy.symm.trans hc)

/-- A printed byte takes three characters. -/
theorem length_hexLine (lead : Bytes) (items : List (UInt8 × Bytes)) :
    3 * items.length + 1 ≤ (hexLine lead items).length := by
  have hitems : 3 * items.length ≤
      (items.flatMap fun item => hexOutput item.1 ++ item.2).length := by
    induction items with
    | nil => exact Nat.le_refl _
    | cons item items ih =>
      have hitem : (hexOutput item.1).length = 3 := rfl
      simp only [List.flatMap_cons, List.length_cons, List.length_append, hitem] at ih ⊢
      omega
  rw [hexLine, List.append_assoc, List.length_append, List.length_append, List.length_singleton]
  exact Nat.le_trans (Nat.succ_le_succ hitems) (Nat.le_add_left _ _)

/-- The printed line of any bytes is read back as these bytes, and they fit the buffer. -/
theorem hexInput_hexLine (hne : items ≠ []) (hlead : ∀ x ∈ lead, isspace x = true)
    (hgap : ∀ item ∈ items, ∀ x ∈ item.2, isspace x = true)
    (hlen : (hexLine lead items).length ≤ 511) (behind : Bytes) :
    hexInput (hexLine lead items ++ 0 :: behind) = some (some (items.map Prod.fst)) ∧
      (items.map Prod.fst).length ≤ 170 := by
  obtain ⟨hclosed, hlast⟩ := tokens_hexLine hlead hgap
  refine ⟨?_, ?_⟩
  · have hvalues : (closedTokens (hexLine lead items)).map pairValue = items.map Prod.fst := by
      rw [hclosed, List.map_map]
      exact List.map_congr_left fun item _ => pairValue_hexDigits item.1
    rw [← hvalues]
    apply hexInput_accepts (nul_not_mem_hexLine hlead hgap) hlen (not_frontSingle_hexLine hlead)
    · intro t ht
      rw [hclosed] at ht
      obtain ⟨item, -, rfl⟩ := List.mem_map.1 ht
      exact endsInPair_hexDigits item.1
    · rw [hclosed]
      exact fun h => hne (List.map_eq_nil_iff.1 h)
    · exact lastPiece_short hlast
  · have hthree := length_hexLine lead items
    rw [List.length_map]
    omega

/-- A byte, and two more behind a blank. -/
theorem hexInput_hexLine_three :
    hexInput (hexLine [32] [(0x0A, []), (0xFF, [32, 32]), (0x30, [9])] ++ 0 :: [7]) =
      some (some [0x0A, 0xFF, 0x30]) ∧ [(0x0A : UInt8), 0xFF, 0x30].length ≤ 170 := by
  apply hexInput_hexLine (List.cons_ne_nil _ _)
  · simp [isspace]
  · simp [isspace]
  · decide

/-! ### What is accepted otherwise -/

/-- A hex byte is two digits. -/
def TwoDigits (t : Bytes) : Prop := t.length = 2 ∧ ∀ x ∈ t, isxdigit x = true

/-- The loop ends without reading outside the line and its NUL, whatever stands behind them, and
what is accepted are pairs of digits. -/
def ReadsHexOnly (line : Bytes) : Prop :=
  ∃ r, (∀ behind, hexInput (line ++ 0 :: behind) = some r) ∧
    ∀ bytes, r = some bytes → ∀ t ∈ tokens line, TwoDigits t

/-- Some token is rejected, or the line ends with white space and has no token of more than two
characters. -/
def HexOnly (line : Bytes) : Prop :=
  ¬ FrontSingle line ∧ ((∃ t ∈ closedTokens line, ¬ EndsInPair t) ∨
    (lastPiece line = [] ∧ ∀ t ∈ tokens line, t.length ≤ 2))

theorem rejected_or_pairs (line : Bytes) :
    (∃ t ∈ closedTokens line, ¬ EndsInPair t) ∨ ∀ t ∈ closedTokens line, EndsInPair t := by
  by_cases h : ∀ t ∈ closedTokens line, EndsInPair t
  · exact Or.inr h
  · obtain ⟨t, ht⟩ := Classical.not_forall.1 h
    exact Or.inl ⟨t, Classical.not_imp.1 ht⟩

theorem twoDigits_of_endsInPair {t : Bytes} (h : EndsInPair t) (hlen : t.length ≤ 2) :
    TwoDigits t := by
  obtain ⟨u, a, b, rfl, ha, hb⟩ := h
  rw [List.length_append] at hlen
  have hnil : u = [] := List.eq_nil_of_length_eq_zero
    (Nat.le_zero.1 (Nat.le_of_add_le_add_right (hlen.trans_eq (Nat.zero_add 2).symm)))
  subst hnil
  refine ⟨rfl, fun x hx => ?_⟩
  rcases List.mem_cons.1 hx with rfl | hx
  · exact ha
  · rw [List.mem_singleton.1 hx]
    exact hb

/-- A line is read as hex bytes only under exactly this condition. -/
theorem readsHexOnly_iff (hnul : 0 ∉ line) (hlen : line.length ≤ 511) :
    ReadsHexOnly line ↔ HexOnly line := by
  constructor
  · intro h
    obtain ⟨r, hrun, hsound⟩ := h
    have hinside : hexInput (line ++ [0]) ≠ none := by
      rw [hrun []]
      exact Option.some_ne_none r
    have hfront : ¬ FrontSingle line := fun hfront => hinside (hexInput_front hnul hfront [])
    refine ⟨hfront, ?_⟩
    rcases rejected_or_pairs line with hreject | hall
    · exact Or.inl hreject
    · -- An accepted line has pairs of digits only.
      have hpairs : closedTokens line ≠ [] → (lastPiece line).length ≤ 1 →
          ∀ t ∈ tokens line, TwoDigits t := by
        intro hne hshort
        apply hsound ((closedTokens line).map pairValue)
        exact Option.some.inj ((hrun []).symm.trans
          (hexInput_accepts hnul hlen hfront hall hne hshort []))
      right
      by_cases hlast : lastPiece line = []
      · refine ⟨hlast, fun t ht => ?_⟩
        have hne : closedTokens line ≠ [] := by
          rw [tokens, Tokens.tokens_of_rest_nil hlast] at ht
          exact List.ne_nil_of_mem ht
        exact Nat.le_of_eq (hpairs hne (lastPiece_short hlast) t ht).1
      · -- A piece without white space behind it is read past the NUL, or is not read at all.
        exfalso
        by_cases hclosed : closedTokens line = []
        · exact hinside (hexInput_open hnul hclosed hlast)
        · rcases Nat.lt_or_ge (lastPiece line).length 2 with hshort | hlong
          · have htwo := hpairs hclosed (Nat.le_of_lt_succ hshort) _ (Tokens.rest_mem_tokens hlast)
            exact absurd htwo.1 (Nat.ne_of_lt hshort)
          · exact hinside (hexInput_leaves hnul hlen hfront hall hlong)
  · intro h
    obtain ⟨hfront, h⟩ := h
    rcases rejected_or_pairs line with hreject | hall
    · exact ⟨none, hexInput_rejects hnul hlen hfront hreject, fun _ h => nomatch h⟩
    · obtain ⟨hlast, hshort⟩ := h.resolve_left fun hreject =>
        hreject.elim fun t ht => ht.2 (hall t ht.1)
      by_cases hclosed : closedTokens line = []
      · exact ⟨none, hexInput_blank hnul hlen hfront hclosed hlast, fun _ h => nomatch h⟩
      · refine ⟨_, hexInput_accepts hnul hlen hfront hall hclosed (lastPiece_short hlast),
          fun _ _ t ht => ?_⟩
        apply twoDigits_of_endsInPair _ (hshort t ht)
        rw [tokens, Tokens.tokens_of_rest_nil hlast] at ht
        exact hall t ht

/-- A pair and a newline. -/
theorem readsHexOnly_iff_pair :
    ReadsHexOnly [ascii 'A', ascii 'B', ascii '\n'] ↔ HexOnly [ascii 'A', ascii 'B', ascii '\n'] :=
  readsHexOnly_iff (by decide) (by decide)

/-- Letters in front of the pair are passed over, a last pair without a newline is read past its
NUL, and one character alone is compared with the byte in front of the line. -/
theorem letters_before_pair_accepted :
    ¬ ReadsHexOnly ("zzAB\n".toList.map ascii) ∧
      hexInput ("AB CD".toList.map ascii ++ [0]) = none ∧
      hexInput ("A\n".toList.map ascii ++ [0]) = none := by
  refine ⟨?_, by decide, by decide⟩
  intro h
  obtain ⟨r, hrun, hsound⟩ := h
  have haccepted : hexInput ("zzAB\n".toList.map ascii ++ [0]) = some (some [0xAB]) := by decide
  have hr := Option.some.inj ((hrun []).symm.trans haccepted)
  have htwo := hsound [0xAB] hr ("zzAB".toList.map ascii) (by decide)
  exact absurd htwo.1 (by decide)

end HexInput
end CFunction
