import CFunction.Uart.Proofs.HexLines

/-!
# What the hex input loop makes of a line

The loop reads the closed tokens one after the other, and ends at the first that does not end in
two digits. What stands behind the last white space is not read if it is one character, and makes
the loop leave the line if it is more.
-/

namespace CFunction
namespace HexInput

open CString

/-- The tokens of a line, and those with white space behind them. -/
abbrev tokens (line : Bytes) : List Bytes := Tokens.tokens isspace line
abbrev closedTokens (line : Bytes) : List Bytes := Tokens.closed isspace line

/-- What stands behind the last white space. -/
abbrev lastPiece (line : Bytes) : Bytes := Tokens.rest isspace line

/-- What the loop does from the index `i` on, when `text` is what is left of the line from the
beginning of a token on and `behind` stands behind the NUL. -/
structure Reads (txBuf : Bytes) (len : Int) (fuel : Nat) (i : Int) (txBufTmp text behind : Bytes) :
    Prop where
  rejects : (∃ t ∈ closedTokens text, ¬ EndsInPair t) →
    ∃ e txBufTmp', hexLoop txBuf len fuel i txBufTmp = some (e, txBufTmp') ∧ e < len
  accepts : (∀ t ∈ closedTokens text, EndsInPair t) → (lastPiece text).length ≤ 1 →
    ∃ e, hexLoop txBuf len fuel i txBufTmp =
      some (e, txBufTmp ++ (closedTokens text).map pairValue) ∧ len ≤ e
  leaves : (∀ t ∈ closedTokens text, EndsInPair t) → 2 ≤ (lastPiece text).length → behind = [] →
    hexLoop txBuf len fuel i txBufTmp = none

variable {pre t t₁ t₂ g text more behind txBufTmp : Bytes} {c : UInt8} {len : Int} {fuel : Nat}

/-- What white space runs up to: the text, or the NUL. -/
theorem exists_head (htext : ∀ d, text.head? = some d → isspace d = false) (behind : Bytes) :
    ∃ d more, text ++ 0 :: behind = d :: more ∧ isspace d = false := by
  cases text with
  | nil => exact ⟨0, behind, rfl, not_isspace_nul⟩
  | cons d text => exact ⟨d, text ++ 0 :: behind, rfl, htext d rfl⟩

/-- A round, and what follows it. -/
theorem Reads.token (ht : ∀ x ∈ t₁ ++ t₂, isspace x = false) (hne : t₁ ++ t₂ ≠ [])
    (hc : isspace c = true) (hg : ∀ x ∈ g, isspace x = true)
    (htext : ∀ d, text.head? = some d → isspace d = false)
    (hpre : pre = [] → 2 ≤ (t₁ ++ t₂).length)
    (hspace : ∀ s, pre.getLast? = some s → isspace s = true)
    (hi : ((pre ++ (t₁ ++ t₂)).length : Int) < len) (hroom : txBufTmp.length < BUF_SIZE)
    (hnext : EndsInPair (t₁ ++ t₂) → Reads (pre ++ (t₁ ++ t₂) ++ c :: (g ++ (text ++ 0 :: behind)))
      len fuel ((pre ++ (t₁ ++ t₂) ++ c :: g).length + 1) (txBufTmp ++ [pairValue (t₁ ++ t₂)]) text
      behind) :
    Reads (pre ++ (t₁ ++ t₂) ++ c :: (g ++ (text ++ 0 :: behind))) len (fuel + 1)
      (pre ++ t₁).length txBufTmp (t₁ ++ t₂ ++ c :: (g ++ text)) behind := by
  have hstart : ((pre ++ t₁).length : Int) < len := by
    simp only [List.length_append] at hi ⊢
    omega
  have hclosed : closedTokens (t₁ ++ t₂ ++ c :: (g ++ text)) = (t₁ ++ t₂) :: closedTokens text := by
    rw [closedTokens, Tokens.closed_append_cons ht hne hc, Tokens.closed_append hg]
  have hlast : lastPiece (t₁ ++ t₂ ++ c :: (g ++ text)) = lastPiece text := by
    rw [lastPiece, Tokens.rest_append_cons ht hc, Tokens.rest_append hg]
  by_cases hpair : EndsInPair (t₁ ++ t₂)
  · -- The token is stored, and the rest decides.
    have hnext := hnext hpair
    obtain ⟨d, more, hmore, hd⟩ := exists_head htext behind
    have hround : hexLoop (pre ++ (t₁ ++ t₂) ++ c :: (g ++ (text ++ 0 :: behind))) len (fuel + 1)
        (pre ++ t₁).length txBufTmp =
        hexLoop (pre ++ (t₁ ++ t₂) ++ c :: (g ++ (text ++ 0 :: behind))) len fuel
          ((pre ++ (t₁ ++ t₂) ++ c :: g).length + 1) (txBufTmp ++ [pairValue (t₁ ++ t₂)]) := by
      rw [hmore]
      exact hexLoop_pair hpair ht hc hg hd hstart hroom
    refine ⟨?_, ?_, ?_⟩
    · intro h
      obtain ⟨t, hmem, hnot⟩ := h
      rw [hclosed] at hmem
      rw [hround]
      rcases List.mem_cons.1 hmem with rfl | hmem
      · exact absurd hpair hnot
      · exact hnext.rejects ⟨t, hmem, hnot⟩
    · intro hall hone
      rw [hclosed] at hall ⊢
      rw [hlast] at hone
      obtain ⟨e, hrun, he⟩ := hnext.accepts (fun t h => hall t (List.mem_cons_of_mem _ h)) hone
      refine ⟨e, ?_, he⟩
      rw [hround, hrun, List.append_assoc, List.map_cons, List.singleton_append]
    · intro hall htwo hbehind
      rw [hclosed] at hall
      rw [hlast] at htwo
      rw [hround]
      exact hnext.leaves (fun t h => hall t (List.mem_cons_of_mem _ h)) htwo hbehind
  · -- The token ends the loop.
    have hbreak : hexLoop (pre ++ (t₁ ++ t₂) ++ c :: (g ++ (text ++ 0 :: behind))) len (fuel + 1)
        (pre ++ t₁).length txBufTmp = some (((pre ++ (t₁ ++ t₂)).length : Int), txBufTmp) :=
      hexLoop_reject hpair hne hpre hspace ht hc hstart
    have hnot : ¬ ∀ t ∈ closedTokens (t₁ ++ t₂ ++ c :: (g ++ text)), EndsInPair t := by
      intro hall
      rw [hclosed] at hall
      exact hpair (hall _ List.mem_cons_self)
    exact ⟨fun _ => ⟨_, _, hbreak, hi⟩, fun hall => absurd hall hnot, fun hall => absurd hall hnot⟩

/-- Without white space in it, what is left is one piece. -/
theorem closedTokens_single (ht : ∀ x ∈ t, isspace x = false) : closedTokens t = [] :=
  Tokens.closed_of_all_not ht

theorem lastPiece_single (ht : ∀ x ∈ t, isspace x = false) : lastPiece t = t :=
  Tokens.rest_of_all_not ht

/-- The last piece, from a place in it in the line. -/
theorem Reads.single (ht : ∀ x ∈ t₁ ++ t₂, isspace x = false)
    (hi : ((pre ++ t₁).length : Int) < len) (htwo : 2 ≤ (t₁ ++ t₂).length) :
    Reads (pre ++ (t₁ ++ t₂) ++ 0 :: behind) len fuel (pre ++ t₁).length txBufTmp (t₁ ++ t₂)
      behind := by
  refine ⟨?_, ?_, ?_⟩
  · intro h
    rw [closedTokens_single ht] at h
    obtain ⟨t, hmem, -⟩ := h
    exact absurd hmem List.not_mem_nil
  · intro _ hone
    rw [lastPiece_single ht] at hone
    omega
  · intro _ _ hbehind
    have hnul : ∀ x ∈ t₂ ++ [0], isspace x = false :=
      not_isspace_concat_nul fun x hx => ht x (List.mem_append_right t₁ hx)
    rw [hbehind, List.append_assoc pre, List.append_assoc t₁, ← List.append_assoc pre t₁]
    exact hexLoop_leaves hnul hi

/-- The loop is over at the end of the line, where at most one character is left unread. -/
theorem Reads.done {txBuf : Bytes} {i : Int} (ht : ∀ x ∈ t, isspace x = false)
    (hone : t.length ≤ 1) (hi : len ≤ i) :
    Reads txBuf len (fuel + 1) i txBufTmp t behind := by
  refine ⟨?_, ?_, ?_⟩
  · intro h
    rw [closedTokens_single ht] at h
    obtain ⟨t, hmem, -⟩ := h
    exact absurd hmem List.not_mem_nil
  · intro _ _
    refine ⟨i, ?_, hi⟩
    rw [hexLoop_done hi, closedTokens_single ht, List.map_nil, List.append_nil]
  · intro _ htwo
    rw [lastPiece_single ht] at htwo
    omega

/-- A closed token and what follows it. -/
theorem exists_closed_token {text : Bytes} (htext : ∀ d, text.head? = some d → isspace d = false) :
    (∀ x ∈ text, isspace x = false) ∨
      ∃ t c g more, text = t ++ c :: (g ++ more) ∧ t ≠ [] ∧ (∀ x ∈ t, isspace x = false) ∧
        isspace c = true ∧ (∀ x ∈ g, isspace x = true) ∧
        ∀ d, more.head? = some d → isspace d = false := by
  rcases Tokens.exists_token isspace text with hall | ⟨t, c, m, rfl, ht, hc⟩
  · exact Or.inl hall
  · obtain ⟨g, more, rfl, hg, hmore⟩ := Tokens.exists_lead isspace m
    refine Or.inr ⟨t, c, g, more, rfl, ?_, ht, hc, hg, hmore⟩
    intro hnil
    rw [hnil] at htext
    exact Bool.ne_false_iff.2 hc (htext c rfl)

/-- The last character in front of the rest of the line. -/
theorem isspace_last (pre : Bytes) (hc : isspace c = true) (hg : ∀ x ∈ g, isspace x = true) :
    ∀ s, (pre ++ c :: g).getLast? = some s → isspace s = true := by
  intro s hs
  have hmem : s ∈ c :: g := by
    rw [List.getLast?_append, List.getLast?_cons, Option.some_or] at hs
    rw [← Option.some.inj hs]
    exact List.mem_of_getLast? List.getLast?_cons
  rcases List.mem_cons.1 hmem with rfl | hmem
  · exact hc
  · exact hg s hmem

/-- What the loop does in at most `fuel` rounds from the second character of a token on, or from
behind the NUL. Each byte that is stored took three characters. -/
def ReadsLine (behind : Bytes) (fuel : Nat) : Prop :=
  ∀ pre text txBufTmp : Bytes, text.length < fuel →
    (∀ d, text.head? = some d → isspace d = false) → pre ≠ [] →
    (∀ s, pre.getLast? = some s → isspace s = true) → (pre ++ text).length ≤ 511 →
    3 * txBufTmp.length ≤ pre.length →
    Reads (pre ++ text ++ 0 :: behind) (pre ++ text).length fuel (pre.length + 1) txBufTmp text
      behind

/-- A closed token, and the line behind it. -/
theorem ReadsLine.token {text : Bytes} (hline : ReadsLine behind fuel)
    (htext : text = t₁ ++ t₂ ++ c :: (g ++ more)) (hne : t₁ ++ t₂ ≠ [])
    (ht : ∀ x ∈ t₁ ++ t₂, isspace x = false) (hc : isspace c = true)
    (hg : ∀ x ∈ g, isspace x = true) (hmore : ∀ d, more.head? = some d → isspace d = false)
    (hpre : pre = [] → 2 ≤ (t₁ ++ t₂).length)
    (hspace : ∀ s, pre.getLast? = some s → isspace s = true) (hfuel : text.length ≤ fuel)
    (hlen : (pre ++ text).length ≤ 511) (hroom : 3 * txBufTmp.length ≤ pre.length) :
    Reads (pre ++ text ++ 0 :: behind) (pre ++ text).length (fuel + 1) (pre ++ t₁).length txBufTmp
      text behind := by
  subst htext
  generalize htoken : t₁ ++ t₂ = t at hne ht hpre hfuel hlen ⊢
  have hsplit : pre ++ (t ++ c :: (g ++ more)) = pre ++ t ++ c :: g ++ more := by
    simp only [List.append_assoc, List.cons_append]
  have hbytes : pre ++ (t ++ c :: (g ++ more)) ++ 0 :: behind =
      pre ++ t ++ c :: (g ++ (more ++ 0 :: behind)) := by
    simp only [List.append_assoc, List.cons_append]
  have hsize : (pre ++ (t ++ c :: (g ++ more))).length =
      (pre ++ t).length + (1 + (g ++ more).length) := by
    simp only [List.length_append, List.length_cons]
    omega
  have hfront : 3 * (txBufTmp ++ [pairValue t]).length ≤ 3 * txBufTmp.length + 3 := by
    rw [List.length_append]
    exact Nat.le_refl _
  rw [hbytes]
  subst htoken
  apply Reads.token ht hne hc hg hmore hpre hspace
  · rw [Int.ofNat_lt, hsize]
    exact Nat.lt_add_of_pos_right (Nat.lt_of_lt_of_le Nat.one_pos (Nat.le_add_right _ _))
  · rw [BUF_SIZE]
    simp only [List.length_append] at hlen
    omega
  · intro hpair
    obtain ⟨u, a, b, hu, -, -⟩ := hpair
    have htwo : 2 ≤ (t₁ ++ t₂).length := by
      rw [hu, List.length_append]
      exact Nat.le_add_left _ _
    have hrest := hline (pre ++ (t₁ ++ t₂) ++ c :: g) more (txBufTmp ++ [pairValue (t₁ ++ t₂)])
      ?_ hmore ?_ (isspace_last _ hc hg) ?_ ?_
    · rw [hsplit]
      rw [List.append_assoc _ more, List.append_assoc _ (c :: g), List.cons_append] at hrest
      exact hrest
    · simp only [List.length_append, List.length_cons] at hfuel ⊢
      omega
    · exact List.append_ne_nil_of_right_ne_nil _ (List.cons_ne_nil c g)
    · rw [← hsplit]
      exact hlen
    · apply Nat.le_trans hfront
      simp only [List.length_append, List.length_cons] at htwo ⊢
      omega

theorem readsLine (behind : Bytes) (fuel : Nat) : ReadsLine behind fuel := by
  induction fuel with
  | zero => exact fun _ _ _ hfuel => absurd hfuel (Nat.not_lt_zero _)
  | succ fuel ih =>
    intro pre text txBufTmp hfuel htext hne hspace hlen hroom
    rcases exists_closed_token htext with hall | ⟨t, c, g, more, heq, htne, ht, hc, hg, hmore⟩
    · by_cases hone : text.length ≤ 1
      · refine Reads.done hall hone ?_
        rw [List.length_append]
        omega
      · obtain ⟨x, r, rfl⟩ := List.exists_cons_of_ne_nil
          (List.ne_nil_of_length_pos (Nat.lt_of_not_le fun h => hone (Nat.le_succ_of_le h)))
        rw [← length_concat pre x]
        show Reads (pre ++ ([x] ++ r) ++ 0 :: behind) _ _ _ _ ([x] ++ r) _
        apply Reads.single hall
        · simp only [List.length_append, List.length_cons, List.length_nil] at hone ⊢
          omega
        · exact Nat.lt_of_not_le hone
    · obtain ⟨x, r, rfl⟩ := List.exists_cons_of_ne_nil htne
      rw [← length_concat pre x]
      exact ih.token heq htne ht hc hg hmore (fun h => absurd h hne) hspace
        (Nat.le_of_lt_succ hfuel) hlen hroom

end HexInput
end CFunction
