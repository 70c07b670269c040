import CFunction.Uart.HexInput

/-!
# Rounds of the hex input loop

A round begins on the first or the second character of an item, runs to the white space behind it,
and looks back at its last two characters. The items of a line are its tokens.
-/

namespace CFunction
namespace HexInput

open CString

variable {pre t t₁ t₂ u g more txBufTmp : Bytes} {a b c d : UInt8} {len : Int} {fuel : Nat}

/-- The last two characters of the token are hex digits. -/
def EndsInPair (t : Bytes) : Prop :=
  ∃ u a b, t = u ++ [a, b] ∧ isxdigit a = true ∧ isxdigit b = true

/-- The byte that the loop stores for a token. -/
def pairValue (t : Bytes) : UInt8 :=
  UInt8.ofNat (strtolHex (t.drop (t.length - 2)) &&& 0xFF)

theorem not_isxdigit_of_isspace (h : isspace c = true) : isxdigit c = false := by
  grind [isspace, isxdigit, ascii]

theorem not_isspace_nul : isspace 0 = false := rfl

theorem not_isspace_concat_nul (ht : ∀ x ∈ t, isspace x = false) :
    ∀ x ∈ t ++ [0], isspace x = false := by
  intro x hx
  rcases List.mem_append.1 hx with hx | hx
  · exact ht x hx
  · rw [List.mem_singleton.1 hx]
    exact not_isspace_nul

/-! ### Reading -/

theorem load_append (pre : Bytes) (c : UInt8) (more : Bytes) :
    load (pre ++ c :: more) pre.length = some c := by
  rw [load_nat, List.getElem?_append_right (Nat.le_refl _), Nat.sub_self]
  rfl

theorem length_concat (pre : Bytes) (x : UInt8) :
    ((pre ++ [x]).length : Int) = (pre.length : Int) + 1 := by
  rw [List.length_append, List.length_singleton]
  rfl

/-- The scan ends in front of the first character of the other kind. -/
theorem scan_stop {space : Bool} (hg : ∀ x ∈ g, isspace x = space) (hc : isspace c ≠ space)
    (more : Bytes) : ∀ (pre : Bytes) (fuel : Nat), g.length < fuel →
      scan space (pre ++ g ++ c :: more) fuel pre.length = some ((pre ++ g).length : Int) := by
  induction g with
  | nil =>
    intro pre fuel hfuel
    obtain ⟨fuel, rfl⟩ := Nat.exists_eq_add_one.2 hfuel
    rw [List.append_nil, scan, load_append, Option.bind_eq_bind, Option.bind_some, if_neg hc]
  | cons x g ih =>
    intro pre fuel hfuel
    obtain ⟨fuel, rfl⟩ := Nat.exists_eq_add_one.2 (Nat.lt_of_le_of_lt (Nat.zero_le _) hfuel)
    have hrest := ih (fun y hy => hg y (List.mem_cons_of_mem x hy)) (pre ++ [x]) fuel
      (Nat.lt_of_succ_lt_succ hfuel)
    rw [List.append_assoc pre [x] g, List.singleton_append, length_concat] at hrest
    have hload : load (pre ++ x :: g ++ c :: more) pre.length = some x := by
      rw [List.append_assoc]
      exact load_append pre x _
    rw [scan, hload, Option.bind_eq_bind, Option.bind_some, if_pos (hg x List.mem_cons_self)]
    exact hrest

/-- A scan that meets no character of the other kind leaves the bytes. -/
theorem scan_leaves {space : Bool} (hg : ∀ x ∈ g, isspace x = space) : ∀ (pre : Bytes) (fuel : Nat),
    scan space (pre ++ g) fuel pre.length = none := by
  induction g with
  | nil =>
    intro pre fuel
    cases fuel with
    | zero => rfl
    | succ fuel =>
      rw [List.append_nil, scan, load_nat, List.getElem?_eq_none (Nat.le_refl _)]
      rfl
  | cons x g ih =>
    intro pre fuel
    cases fuel with
    | zero => rfl
    | succ fuel =>
      have hrest := ih (fun y hy => hg y (List.mem_cons_of_mem x hy)) (pre ++ [x]) fuel
      rw [List.append_assoc pre [x] g, List.singleton_append, length_concat] at hrest
      rw [scan, load_append, Option.bind_eq_bind, Option.bind_some,
        if_pos (hg x List.mem_cons_self)]
      exact hrest

/-! ### One round -/

/-- The loop is over behind the line. -/
theorem hexLoop_done {txBuf : Bytes} {i : Int} (hi : len ≤ i) :
    hexLoop txBuf len (fuel + 1) i txBufTmp = some (i, txBufTmp) := by
  rw [hexLoop, if_neg (Int.not_lt.2 hi)]

/-- Without white space behind the token the loop leaves the bytes. -/
theorem hexLoop_leaves (ht : ∀ x ∈ t, isspace x = false) (hi : (pre.length : Int) < len) :
    hexLoop (pre ++ t) len fuel pre.length txBufTmp = none := by
  cases fuel with
  | zero => rfl
  | succ fuel =>
    rw [hexLoop, if_pos hi, scan_leaves ht]
    rfl

/-- The scan to the end of the token, from a place in it. -/
theorem scan_token (ht : ∀ x ∈ t₁ ++ t₂, isspace x = false) (hc : isspace c = true) (pre : Bytes)
    (more : Bytes) :
    scan false (pre ++ (t₁ ++ t₂) ++ c :: more) ((pre ++ (t₁ ++ t₂) ++ c :: more).length + 1)
      (pre ++ t₁).length = some ((pre ++ (t₁ ++ t₂)).length : Int) := by
  have hspace : isspace c ≠ false := Bool.ne_false_iff.2 hc
  have hstop := scan_stop (fun x hx => ht x (List.mem_append_right t₁ hx)) hspace more (pre ++ t₁)
    ((pre ++ (t₁ ++ t₂) ++ c :: more).length + 1) (by
      simp only [List.length_append, List.length_cons]
      omega)
  rw [List.append_assoc pre t₁ t₂] at hstop
  exact hstop

/-- The two characters in front of a place. -/
theorem load_last_two {s q : Bytes} (h : s = q ++ [a, b]) (more : Bytes) :
    load (s ++ more) (s.length - 2) = some a ∧ load (s ++ more) (s.length - 1) = some b := by
  subst h
  have hfirst : ((q ++ [a, b]).length : Int) - 2 = q.length := by
    rw [List.length_append, Int.natCast_add]
    exact Int.add_sub_cancel _ _
  have hsecond : ((q ++ [a, b]).length : Int) - 1 = (q ++ [a]).length := by
    simp only [List.length_append, List.length_cons, List.length_nil]
    omega
  rw [hfirst, hsecond, List.append_assoc]
  refine ⟨load_append _ _ _, ?_⟩
  rw [List.cons_append, List.append_cons q a]
  exact load_append _ _ _

theorem strtolHex_pair (ha : isxdigit a = true) (hb : isxdigit b = true)
    (hc : isxdigit c = false) : strtolHex (a :: b :: c :: more) = strtolHex [a, b] := by
  simp only [strtolHex, List.takeWhile_cons, ha, hb, hc, if_true, Bool.false_eq_true, if_false,
    List.takeWhile_nil]

theorem drop_pair (u : Bytes) (a b : UInt8) :
    (u ++ [a, b]).drop ((u ++ [a, b]).length - 2) = [a, b] := by
  rw [List.length_append]
  exact List.drop_left

/-- A token that ends in a pair of digits is stored, and the loop goes on behind the first character
of what follows. -/
theorem hexLoop_pair (hpair : EndsInPair (t₁ ++ t₂)) (ht : ∀ x ∈ t₁ ++ t₂, isspace x = false)
    (hc : isspace c = true) (hg : ∀ x ∈ g, isspace x = true) (hd : isspace d = false)
    (hi : ((pre ++ t₁).length : Int) < len) (hroom : txBufTmp.length < BUF_SIZE) :
    hexLoop (pre ++ (t₁ ++ t₂) ++ c :: (g ++ d :: more)) len (fuel + 1)
        (pre ++ t₁).length txBufTmp =
      hexLoop (pre ++ (t₁ ++ t₂) ++ c :: (g ++ d :: more)) len fuel
        ((pre ++ (t₁ ++ t₂) ++ c :: g).length + 1) (txBufTmp ++ [pairValue (t₁ ++ t₂)]) := by
  have hscan := scan_token ht hc pre (g ++ d :: more)
  generalize t₁ ++ t₂ = t at hpair ht hscan ⊢
  obtain ⟨u, a, b, rfl, ha, hb⟩ := hpair
  have hsplit : pre ++ (u ++ [a, b]) ++ c :: (g ++ d :: more) =
      (pre ++ u) ++ a :: b :: c :: (g ++ d :: more) := by simp
  obtain ⟨hhigh, hlow⟩ := load_last_two (List.append_assoc pre u [a, b]).symm
    (c :: (g ++ d :: more))
  have hvalue : UInt8.ofNat (strtolHex ((pre ++ (u ++ [a, b]) ++ c :: (g ++ d :: more)).drop
      (((pre ++ (u ++ [a, b])).length : Int) - 2).toNat) &&& 0xFF) = pairValue (u ++ [a, b]) := by
    have hend : (((pre ++ (u ++ [a, b])).length : Int) - 2).toNat = (pre ++ u).length := by
      simp only [List.length_append, List.length_cons, List.length_nil]
      omega
    rw [hend, hsplit, List.drop_left, strtolHex_pair ha hb (not_isxdigit_of_isspace hc), pairValue,
      drop_pair]
  have hgap : scan true (pre ++ (u ++ [a, b]) ++ c :: (g ++ d :: more))
      ((pre ++ (u ++ [a, b]) ++ c :: (g ++ d :: more)).length + 1)
      ((pre ++ (u ++ [a, b])).length + 1) =
        some ((pre ++ (u ++ [a, b]) ++ c :: g).length : Int) := by
    have hnot : isspace d ≠ true := Bool.eq_false_iff.1 hd
    have hstop := scan_stop hg hnot more (pre ++ (u ++ [a, b]) ++ [c])
      ((pre ++ (u ++ [a, b]) ++ c :: (g ++ d :: more)).length + 1) (by
        simp only [List.length_append, List.length_cons]
        omega)
    rw [length_concat, List.append_assoc _ [c], List.singleton_append, List.append_assoc _ (c :: g),
      List.cons_append] at hstop
    exact hstop
  rw [hexLoop, if_pos hi, hscan]
  simp only [Option.bind_eq_bind, Option.bind_some, hhigh, ha, if_true, hlow, hb, hvalue, push,
    if_pos hroom, hgap]

/-- Two characters that are not both digits end the loop in the line. -/
theorem hexLoop_break {q : Bytes} (hsplit : pre ++ (t₁ ++ t₂) = q ++ [a, b])
    (hab : ¬ (isxdigit a = true ∧ isxdigit b = true)) (ht : ∀ x ∈ t₁ ++ t₂, isspace x = false)
    (hc : isspace c = true) (hi : ((pre ++ t₁).length : Int) < len) :
    hexLoop (pre ++ (t₁ ++ t₂) ++ c :: more) len (fuel + 1) (pre ++ t₁).length txBufTmp =
      some (((pre ++ (t₁ ++ t₂)).length : Int), txBufTmp) := by
  have hscan := scan_token ht hc pre more
  obtain ⟨hhigh, hlow⟩ := load_last_two hsplit (c :: more)
  rw [hexLoop, if_pos hi, hscan]
  simp only [Option.bind_eq_bind, Option.bind_some, hhigh, hlow]
  by_cases ha : isxdigit a = true
  · rw [if_pos ha, if_neg fun hb => hab ⟨ha, hb⟩]
  · rw [if_neg ha]

/-- A token that does not end in two digits ends the loop, unless it is one character at the
beginning of the line. -/
theorem hexLoop_reject (hnot : ¬ EndsInPair (t₁ ++ t₂)) (hne : t₁ ++ t₂ ≠ [])
    (hpre : pre = [] → 2 ≤ (t₁ ++ t₂).length)
    (hspace : ∀ s, pre.getLast? = some s → isspace s = true)
    (ht : ∀ x ∈ t₁ ++ t₂, isspace x = false)
    (hc : isspace c = true) (hi : ((pre ++ t₁).length : Int) < len) :
    hexLoop (pre ++ (t₁ ++ t₂) ++ c :: more) len (fuel + 1) (pre ++ t₁).length txBufTmp =
      some (((pre ++ (t₁ ++ t₂)).length : Int), txBufTmp) := by
  obtain ⟨u, b, htoken⟩ := (List.eq_nil_or_concat' (t₁ ++ t₂)).resolve_left hne
  rcases List.eq_nil_or_concat' u with rfl | ⟨u, a, rfl⟩
  · -- One character: what stands in front of it is white space.
    rcases List.eq_nil_or_concat' pre with hnil | ⟨q, s, hpre'⟩
    · have hlen := hpre hnil
      rw [htoken] at hlen
      exact absurd hlen (Nat.not_succ_le_self 1)
    · have hs := not_isxdigit_of_isspace (hspace s (by rw [hpre', List.getLast?_concat]))
      refine hexLoop_break (q := q) (a := s) (b := b) ?_ (fun hab => ?_) ht hc hi
      · rw [htoken, hpre', List.append_assoc]
        rfl
      · rw [hs] at hab
        exact Bool.false_ne_true hab.1
  · have hsplit : pre ++ (t₁ ++ t₂) = (pre ++ u) ++ [a, b] := by
      rw [htoken, List.append_assoc, List.append_assoc]
      rfl
    refine hexLoop_break hsplit (fun hab => hnot ⟨u, a, b, ?_, hab⟩) ht hc hi
    rw [htoken, List.append_assoc]
    rfl

/-- One character at the beginning of the line: what stands in front of the line is read. -/
theorem hexLoop_front (hone : (t₁ ++ t₂).length = 1) (ht : ∀ x ∈ t₁ ++ t₂, isspace x = false)
    (hc : isspace c = true) (hi : (t₁.length : Int) < len) :
    hexLoop (t₁ ++ t₂ ++ c :: more) len (fuel + 1) t₁.length txBufTmp = none := by
  have hscan := scan_token ht hc [] more
  rw [List.nil_append, List.nil_append, hone] at hscan
  rw [hexLoop, if_pos hi, hscan]
  rfl

end HexInput
end CFunction
