import CFunction.Json.Proofs.ParseSafety
import CFunction.Json.Proofs.PrintRender

/-!
# Numbers are read back

The text of an integer is read as that integer. The text of a `double` is read as a `double`, or,
when it has neither a point nor an exponent, as an integer.
-/

namespace CFunction
namespace Json

open CString

variable {ν : Type} {D : Doubles ν} {content rest s : Bytes} {offset : Nat}

/-- The text does not go on as a number. -/
def Stops (rest : Bytes) : Prop := ∀ c ∈ rest.head?, isNumberChar c = false

theorem numberCString_eq (hs : ∀ c ∈ s, isNumberChar c = true) (hlen : s.length ≤ 63)
    (hrest : Stops rest) (hdrop : content.drop offset = s ++ rest) :
    numberCString content offset = s := by
  have hstop : (rest.take (63 - s.length)).takeWhile isNumberChar = [] := by
    cases rest with
    | nil => simp
    | cons c rest =>
      have hc := hrest c rfl
      cases hn : 63 - s.length with
      | zero => rfl
      | succ n => exact List.takeWhile_cons_of_neg (by simpa using hc)
  rw [numberCString, hdrop, List.take_append, List.take_of_length_le hlen,
    List.takeWhile_append_of_pos hs, hstop, List.append_nil]

/-! ### Digits with a sign -/

theorem digitsLength_digits (hs : ∀ c ∈ s, isDigit c = true) : digitsLength s = s.length := by
  rw [digitsLength, List.takeWhile_eq_self_iff.2 hs]

theorem signLength_digit {c : UInt8} (hc : isDigit c = true) (s : Bytes) :
    signLength (c :: s) = 0 := by
  refine if_neg fun h => ?_
  rcases h with rfl | rfl
  · cases hc
  · cases hc

theorem mantissaLength_digits (hs : ∀ c ∈ s, isDigit c = true) : mantissaLength s = s.length := by
  rw [mantissaLength, digitsLength_digits hs, List.drop_length]

/-- `strtod` takes the whole of a sign and digits. -/
theorem strtodLength_digits {ds : Bytes} (hdrop : s.drop (signLength s) = ds) (hne : ds ≠ [])
    (hds : ∀ c ∈ ds, isDigit c = true) : strtodLength s = s.length := by
  have hpos : ds.length ≠ 0 := fun h => hne (List.eq_nil_of_length_eq_zero h)
  have hsign := signLength_le s
  have hsum := congrArg List.length hdrop
  rw [List.length_drop] at hsum
  simp only [strtodLength, hdrop, mantissaLength_digits hds, if_neg hpos]
  rw [List.drop_of_length_le (by omega), exponentLength]
  omega

/-- `strtoll` takes the whole of a sign and digits. -/
theorem strtoll_digits {ds : Bytes} {n : Nat} (hdrop : s.drop (signLength s) = ds)
    (hds : ∀ c ∈ ds, isDigit c = true) (hn : Numeral.readDigits 10 ds = some n) :
    strtoll s =
      (saturate (if s.head? = some (ascii '-') then -(n : Int) else n), s.length) := by
  have hsign := signLength_le s
  have hsum := congrArg List.length hdrop
  rw [List.length_drop] at hsum
  simp only [strtoll, hdrop, digitsLength_digits hds, List.take_length, hn, Prod.mk.injEq, true_and]
  omega

/-- The sign of a printed integer, and its digits. -/
theorem lld_sign (n : Int64) :
    ∃ ds, (sprintfLld n).drop (signLength (sprintfLld n)) = ds ∧ ds ≠ [] ∧
      (∀ c ∈ ds, isDigit c = true) ∧ Numeral.readDigits 10 ds = some n.toInt.natAbs ∧
      ((sprintfLld n).head? = some (ascii '-') ↔ n.toInt < 0) := by
  obtain ⟨ds, hne, hds, heq, hread⟩ := lld_digits n
  obtain ⟨c, cs, rfl⟩ := List.exists_cons_of_ne_nil hne
  have hc := hds c List.mem_cons_self
  refine ⟨c :: cs, ?_, hne, hds, hread, ?_⟩
  · rw [heq]
    split
    · rfl
    · rw [List.nil_append, signLength_digit hc]
      rfl
  · rw [heq]
    split
    · rename_i hneg
      exact ⟨fun _ => hneg, fun _ => rfl⟩
    · rename_i hneg
      refine ⟨fun h => ?_, fun h => absurd h hneg⟩
      rw [Option.some.inj h] at hc
      cases hc

theorem saturate_toInt (n : Int64) : saturate n.toInt = n := by
  have hlow := Int64.le_toInt n
  have hhigh := Int64.toInt_lt n
  rw [saturate,
    show max (-9223372036854775808) (min 9223372036854775807 n.toInt) = n.toInt by omega,
    Int64.ofInt_toInt]

theorem strtoll_lld (n : Int64) : strtoll (sprintfLld n) = (n, (sprintfLld n).length) := by
  obtain ⟨ds, hdrop, hne, hds, hread, hsign⟩ := lld_sign n
  rw [strtoll_digits hdrop hds hread]
  congr 1
  rw [← saturate_toInt n]
  congr 1
  by_cases hneg : n.toInt < 0
  · rw [saturate_toInt, if_pos (hsign.2 hneg)]
    omega
  · rw [saturate_toInt, if_neg fun h => hneg (hsign.1 h)]
    omega

theorem isInteger_lld (n : Int64) : isInteger (sprintfLld n) = true := by
  obtain ⟨ds, hne, hds, heq, -⟩ := lld_digits n
  have hdigit : ∀ c : UInt8, isDigit c = true → c ∉ text "eE." := by
    intro c hc hmem
    have hnone : (text "eE.").all (fun x => !isDigit x) = true := rfl
    have hfalse := List.all_eq_true.1 hnone c hmem
    rw [hc] at hfalse
    cases hfalse
  rw [isInteger, List.all_eq_true]
  intro c hc
  rw [heq, List.mem_append] at hc
  rcases hc with hsign | hmem
  · split at hsign
    · rw [List.mem_singleton.1 hsign]
      decide
    · cases hsign
  · exact decide_eq_true (hdigit c (hds c hmem))

/-- An integer is read back. -/
theorem parseNumber_lld (D : Doubles ν) (n : Int64) (hrest : Stops rest)
    (hdrop : content.drop offset = sprintfLld n ++ rest) :
    parseNumber D content offset = .ok (.int n, offset + (sprintfLld n).length) := by
  obtain ⟨ds, hsign, hne, hds, -, -⟩ := lld_sign n
  have hlength := sprintfLld_length n
  have hpos : (sprintfLld n).length ≠ 0 := fun h => by
    rw [List.eq_nil_of_length_eq_zero h] at hsign
    exact hne hsign.symm
  have hstring := numberCString_eq (isNumberChar_lld n) (by omega) hrest hdrop
  simp only [parseNumber, hstring, strtodLength_digits hsign hne hds, if_neg hpos, isInteger_lld,
    strtoll_lld, ↓reduceIte]

/-! ### `double` -/

/-- What the text of a `double` is read as. -/
def rereadNumber (D : Doubles ν) (d : ν) : Item ν :=
  if D.isnan d || D.isinf d then .null
  else
    let s := sprintfDouble D d
    if isInteger s then .int (strtoll s).1 else .number (D.strtod s)

theorem digitsLength_pos_of_integer (hs : isInteger s = true) (h : mantissaLength s ≠ 0) :
    digitsLength s ≠ 0 := by
  intro hzero
  apply h
  simp only [mantissaLength, hzero, List.drop_zero]
  cases s with
  | nil => rfl
  | cons c s =>
    dsimp only
    rw [isInteger, List.all_eq_true] at hs
    have hc := hs c List.mem_cons_self
    have hne : c ≠ ascii '.' := fun he => by
      rw [he] at hc
      cases hc
    rw [if_neg hne]

theorem readDigits_some (hne : s ≠ []) (hs : ∀ c ∈ s, isDigit c = true) :
    ∃ n, Numeral.readDigits 10 s = some n := by
  rw [Numeral.readDigits, if_neg hne]
  generalize 0 = v
  clear hne
  induction s generalizing v with
  | nil => exact ⟨v, rfl⟩
  | cons c s ih =>
    have hc := hs c List.mem_cons_self
    simp only [isDigit, Bool.and_eq_true, decide_eq_true_eq, UInt8.le_iff_toNat_le] at hc
    have h48 : (48 : UInt8).toNat = 48 := rfl
    have h57 : (57 : UInt8).toNat = 57 := rfl
    have hvalue : Numeral.digitValue c = some (c.toNat - 48) := if_pos (by omega)
    obtain ⟨n, hn⟩ := ih (fun x hx => hs x (List.mem_cons_of_mem c hx)) (10 * v + (c.toNat - 48))
    refine ⟨n, ?_⟩
    rw [List.foldlM_cons, hvalue]
    simp only [Option.bind_eq_bind, Option.bind_some]
    rw [if_pos (by omega), Option.bind_some]
    exact hn

/-- A literal that `parse_number` takes for an integer has digits for `strtoll`. -/
theorem strtoll_pos (hs : isInteger s = true) (h : strtodLength s ≠ 0) : (strtoll s).2 ≠ 0 := by
  have hmantissa : mantissaLength (s.drop (signLength s)) ≠ 0 := fun hzero => by
    simp only [strtodLength, hzero, ↓reduceIte] at h
    exact h rfl
  have hinteger : isInteger (s.drop (signLength s)) = true := by
    rw [isInteger, List.all_eq_true] at hs ⊢
    exact fun c hc => hs c (List.mem_of_mem_drop hc)
  have hpos := digitsLength_pos_of_integer hinteger hmantissa
  have htake : (s.drop (signLength s)).take (digitsLength (s.drop (signLength s))) =
      (s.drop (signLength s)).takeWhile isDigit :=
    (List.prefix_iff_eq_take.1 (List.takeWhile_prefix _)).symm
  obtain ⟨n, hn⟩ := readDigits_some
    (s := (s.drop (signLength s)).takeWhile isDigit)
    (fun hnil => hpos (congrArg List.length hnil)) fun c hc => List.mem_takeWhile_imp hc
  simp only [strtoll, htake, hn]
  omega

/-- A finite `double` is read back from its text. -/
theorem parseNumber_double (hD : D.Sprintf) {d : ν} (hnan : D.isnan d = false)
    (hinf : D.isinf d = false) (hrest : Stops rest)
    (hdrop : content.drop offset = sprintfDouble D d ++ rest) :
    parseNumber D content offset =
      .ok (rereadNumber D d, offset + (sprintfDouble D d).length) := by
  have hfinite : (D.isnan d || D.isinf d) = false := by rw [hnan, hinf]; rfl
  obtain ⟨precision, htext⟩ : ∃ precision, sprintfDouble D d = D.sprintf precision d := by
    rcases sprintfDouble_cases D d with ⟨hbad, -⟩ | ⟨-, h⟩
    · rw [hfinite] at hbad
      cases hbad
    · exact h
  have hlength := hD.length precision d hnan hinf
  obtain ⟨hpos, hall⟩ := hD.literal precision d hnan hinf
  have hchars := hD.chars precision d hnan hinf
  rw [← htext] at hlength hpos hall hchars
  have hstring := numberCString_eq hchars (by omega) hrest hdrop
  have hne : strtodLength (sprintfDouble D d) ≠ 0 := by omega
  simp only [parseNumber, hstring, if_neg hne, rereadNumber, hfinite, Bool.false_eq_true,
    ↓reduceIte]
  rw [hall, List.take_length]
  split
  · rename_i hint
    rw [if_neg (strtoll_pos hint hne)]
  · rfl

end Json
end CFunction
