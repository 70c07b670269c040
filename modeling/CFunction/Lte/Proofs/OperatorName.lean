import CFunction.Lte.Proofs.MatChecks

/-!
# The name of the operator

`check_sim_operator` looks for a second quote and uses what it finds without a test, and it copies
as many bytes as the name has, not as many as `operator` has.
-/

namespace CFunction
namespace Mat

open CString

variable {modem : Modem} {expect reply s : Bytes}

/-- `0`, with the name between the first two quotes or its first 15 characters in `operator`; or
an error, with `operator` as it was. -/
def ParsesOperator (s : Bytes) (ms : Msim) (result : Option (Msim × Int)) : Prop :=
  ∃ ms' ret, result = some (ms', ret) ∧
    ((ret = 0 ∧ ∃ a name c, s = a ++ ascii '"' :: (name ++ ascii '"' :: c) ∧ ascii '"' ∉ a ∧
        ascii '"' ∉ name ∧ Contains ms'.operator.bytes (name.take 15)) ∨
      (ret < 0 ∧ ms'.operator = ms.operator))

/-- A quote is followed by another one, with at most 15 characters between the first two. -/
def QuotesFit (s : Bytes) : Prop :=
  ∀ a b, s = a ++ ascii '"' :: b → ascii '"' ∉ a →
    ∃ name c, b = name ++ ascii '"' :: c ∧ ascii '"' ∉ name ∧ name.length ≤ 15

theorem quotesFit_iff {a b : Bytes} (ha : ascii '"' ∉ a) : QuotesFit (a ++ ascii '"' :: b) ↔
    ∃ name c, b = name ++ ascii '"' :: c ∧ ascii '"' ∉ name ∧ name.length ≤ 15 := by
  constructor
  · exact fun h => h a b rfl ha
  · rintro h a' b' hsplit ha'
    obtain ⟨-, rfl⟩ := quote_split ha ha' hsplit
    exact h

/-- A reply that holds the expected text is left in the buffer. -/
theorem askFor_found {atCmd : Bytes} (hsent : ¬ (modem atCmd).written < 0)
    (hreply : (modem atCmd).reply = some reply) (hshort : reply.length ≤ 63)
    (hne : reply ≠ []) (hfound : (strstr expect (textOf reply)).isSome) :
    ∃ buf, askFor modem atCmd expect = some (0, buf) ∧ Contains buf (textOf reply) := by
  have hzeros : ((AT_MAX_LEN : Nat) : Int) ≤ (List.replicate AT_MAX_LEN (0 : UInt8)).length :=
    Int.le_of_eq (by rw [List.length_replicate])
  have htext : (textOf reply).length ≤ 63 := Nat.le_trans (textOf_length_le reply) hshort
  have hanswer := @sendAtCmd_answered modem atCmd expect reply
    (some (List.replicate AT_MAX_LEN 0)) AT_MAX_LEN hsent hreply hne
    (Nat.le_succ_of_le hshort) (.inr (Nat.lt_succ_of_le hshort))
  have hsearch : (strstr expect (textOf reply)).isNone = false :=
    Option.isNone_eq_false_iff.2 hfound
  obtain ⟨msg, hcopy, hstring, hlen⟩ :=
    contains_copyMsg (zero_notMem_textOf reply) htext (Int.le_refl _) hzeros
  rw [hsearch, if_neg Bool.false_ne_true, hcopy, Option.map_some] at hanswer
  rw [List.length_replicate] at hlen
  obtain ⟨buf, hstore, hbuf, -⟩ := hstring.store_nul htext (by rw [hlen]; decide)
  have hindex : (63 : Int) = ((63 : Nat) : Int) := rfl
  refine ⟨buf, ?_, hbuf⟩
  rw [askFor]
  simp only [hanswer, Option.bind_eq_bind, Option.bind_some, if_neg (Int.lt_irrefl 0)]
  rw [hindex, hstore]
  rfl

/-- A name between two quotes is copied with its NUL if that fits into `operator`. -/
theorem parsesName_iff {a name c : Bytes} (ms : Msim) (ha : ascii '"' ∉ a)
    (hname : ascii '"' ∉ name) {buf : Bytes} (hbuf : Contains buf (name ++ ascii '"' :: c)) :
    ParsesOperator (a ++ ascii '"' :: (name ++ ascii '"' :: c)) ms
        ((ms.operator.copy name (name.length + 1)).map fun operator =>
          ({ ms with operator := operator }, 0)) ↔
      ∃ name' c', name ++ ascii '"' :: c = name' ++ ascii '"' :: c' ∧ ascii '"' ∉ name' ∧
        name'.length ≤ 15 := by
  by_cases hfits : name.length ≤ 15
  · have hnul : 0 ∉ name := fun hmem => hbuf.1 (List.mem_append_left _ hmem)
    obtain ⟨operator, hcopy, hstring⟩ :=
      ms.operator.contains_copy hnul (Nat.lt_succ_of_le hfits)
    refine ⟨fun _ => ⟨name, c, rfl, hname, hfits⟩, fun _ => ?_⟩
    refine ⟨_, 0, by rw [hcopy]; rfl, .inl ⟨rfl, a, name, c, rfl, ha, hname, ?_⟩⟩
    rw [List.take_of_length_le hfits]
    exact hstring
  · rw [ms.operator.copy_eq_none (by omega), Option.map_none]
    constructor
    · rintro ⟨ms', ret, hresult, -⟩
      cases hresult
    · rintro ⟨name', c', hsplit, hname', hfits'⟩
      obtain ⟨rfl, -⟩ := quote_split hname hname' hsplit
      exact absurd hfits' hfits

/-- A reply is parsed as it should be exactly when its quotes fit. -/
theorem parsesOperator_iff (ms : Msim) (hsent : ¬ (modem (text "AT+COPS?\r")).written < 0)
    (hreply : (modem (text "AT+COPS?\r")).reply = some reply) (hshort : reply.length ≤ 63)
    (hok : text "OK" <:+: textOf reply) :
    ParsesOperator (textOf reply) ms (checkSimOperator modem ms) ↔ QuotesFit (textOf reply) := by
  have hne : reply ≠ [] := by
    intro hnil
    rw [hnil] at hok
    exact absurd (strstr_isSome_iff.2 hok) (by decide)
  obtain ⟨buf, hask, hbuf⟩ := askFor_found hsent hreply hshort hne (strstr_isSome_iff.2 hok)
  generalize textOf reply = s at hbuf
  by_cases hquote : ascii '"' ∈ s
  · obtain ⟨a, b, rfl, ha⟩ := List.eq_append_cons_of_mem hquote
    rw [quotesFit_iff ha]
    by_cases hsecond : ascii '"' ∈ b
    · obtain ⟨name, c, rfl, hname⟩ := List.eq_append_cons_of_mem hsecond
      rw [checkSimOperator_quoted ms hask hbuf ha hname]
      exact parsesName_iff ms ha hname (contains_behind_quote hbuf)
    · rw [checkSimOperator_unclosed ms hask hbuf ha hsecond]
      constructor
      · rintro ⟨ms', ret, hresult, -⟩
        cases hresult
      · rintro ⟨name, c, rfl, -⟩
        exact absurd (List.mem_append_right name List.mem_cons_self) hsecond
  · rw [checkSimOperator_unquoted ms hask hbuf hquote]
    constructor
    · intro _ a b hsplit
      refine absurd ?_ hquote
      rw [hsplit]
      exact List.mem_append_right a List.mem_cons_self
    · exact fun _ => ⟨ms, -1, rfl, .inr ⟨by decide, rfl⟩⟩

def sampleOperator : Bytes := text "+COPS: 0,0,\"CMCC\" OK"

theorem parsesOperator_iff_named :
    ParsesOperator (textOf sampleOperator) ⟨SIM_ZERO, 0, .zero 16⟩
      (checkSimOperator (fun _ => ⟨9, some sampleOperator⟩) ⟨SIM_ZERO, 0, .zero 16⟩) ↔
        QuotesFit (textOf sampleOperator) :=
  parsesOperator_iff ⟨SIM_ZERO, 0, .zero 16⟩ (by decide) rfl (by decide)
    (strstr_isSome_iff.1 (by decide))

/-- With one quote the store through `pend` goes to `NULL`. -/
theorem checkSimOperator_one_quote : (text "\"CMCC OK").length ≤ 63 ∧
    text "OK" <:+: textOf (text "\"CMCC OK") ∧
    checkSimOperator (fun _ => ⟨9, some (text "\"CMCC OK")⟩) ⟨SIM_ZERO, 0, .zero 16⟩ = none :=
  ⟨by decide, strstr_isSome_iff.1 (by decide), by decide⟩

end Mat
end CFunction
