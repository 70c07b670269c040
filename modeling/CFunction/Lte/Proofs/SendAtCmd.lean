import CFunction.Lte.Mat

/-!
# What `send_at_cmd` makes of a reply

A reply of fewer than 64 bytes, or with a NUL among 64, leaves a string in the buffer, and only
that string is searched and copied. A reply of 64 other bytes is searched as far as the expected
text goes, and all of it but the last byte is copied.
-/

namespace CFunction
namespace Mat

open CString

variable {modem : Modem} {atCmd expect reply : Bytes} {msg : Option Bytes} {msgSize : Int}

theorem textOf_isPrefix (reply : Bytes) : textOf reply <+: reply := by
  obtain ⟨hne, rest, hrest⟩ :=
    contains_of_mem (List.mem_append_right reply (List.mem_singleton_self 0))
  have hlen := congrArg List.length hrest
  simp only [List.length_append, List.length_cons, List.length_nil] at hlen
  have hpre : textOf reply <+: reply ++ [0] := by
    rw [textOf]
    exact ⟨0 :: rest, hrest.symm⟩
  refine List.prefix_of_prefix_length_le hpre (List.prefix_append reply [0]) ?_
  rw [textOf]
  omega

theorem textOf_length_le (reply : Bytes) : (textOf reply).length ≤ reply.length :=
  (textOf_isPrefix reply).length_le

theorem zero_notMem_textOf (reply : Bytes) : 0 ∉ textOf reply :=
  (contains_of_mem (List.mem_append_right reply (List.mem_singleton_self 0))).1

theorem textOf_append_nul (reply rest : Bytes) (h : 0 ∈ reply) : cstr (reply ++ rest) =
    textOf reply := by
  obtain ⟨a, b, rfl, ha⟩ := List.eq_append_cons_of_mem h
  rw [textOf, List.append_assoc, List.append_assoc, List.cons_append, List.cons_append,
    cstr_append_nul _ ha, cstr_append_nul _ ha]

theorem strstrIn_eq {buf s : Bytes} (h : Contains buf s) (pat : Bytes) :
    strstrIn buf pat = some (strstr pat s) := by
  have hmem : 0 ∈ buf := by
    obtain ⟨-, rest, rfl⟩ := h
    exact List.mem_append_right s List.mem_cons_self
  rw [strstrIn, if_pos hmem, h.cstr_eq]
  cases strstr pat s with
  | none => rfl
  | some i => rfl

/-- A reply in the zeroed buffer. -/
theorem overwrite_reply {n : Nat} (hle : reply.length ≤ n) :
    overwrite (List.replicate n 0) 0 reply =
      some (reply ++ List.replicate (n - reply.length) 0) := by
  rw [overwrite, Nat.zero_add, List.length_replicate, if_pos hle, List.take_zero,
    List.nil_append, List.drop_replicate]

/-- A NUL is left in the buffer. -/
def Terminated (reply : Bytes) : Prop := 0 ∈ reply ∨ reply.length < AT_MAX_LEN

theorem contains_reply {n : Nat} (h : 0 ∈ reply ∨ reply.length < n) :
    Contains (reply ++ List.replicate (n - reply.length) 0) (textOf reply) := by
  refine ⟨zero_notMem_textOf reply, ?_⟩
  by_cases hnul : 0 ∈ reply
  · have hmem : 0 ∈ reply ++ List.replicate (n - reply.length) 0 := List.mem_append_left _ hnul
    obtain ⟨-, rest, hrest⟩ := contains_of_mem hmem
    rw [textOf_append_nul reply _ hnul] at hrest
    exact ⟨rest, hrest⟩
  · have hshort := h.resolve_left hnul
    obtain ⟨k, hk⟩ : ∃ k, n - reply.length = k + 1 := ⟨n - reply.length - 1, by omega⟩
    have htext : textOf reply = reply := cstr_append_nul [] hnul
    exact ⟨List.replicate k 0, by rw [htext, hk, List.replicate_succ]⟩

theorem Terminated.textOf_length (h : Terminated reply) (hlen : reply.length ≤ AT_MAX_LEN) :
    (textOf reply).length ≤ 63 := by
  obtain ⟨-, rest, hrest⟩ := contains_reply h
  have hcount := congrArg List.length hrest
  simp only [List.length_append, List.length_replicate, List.length_cons] at hcount
  rw [AT_MAX_LEN] at hlen hcount
  omega

/-! ### The outcomes of a call -/

theorem sendAtCmd_unsent (h : (modem atCmd).written < 0) :
    sendAtCmd modem atCmd expect msg msgSize = some (-1, msg) := by
  rw [sendAtCmd, if_pos h]

theorem sendAtCmd_unanswered (hsent : ¬ (modem atCmd).written < 0)
    (h : (modem atCmd).reply = none ∨ (modem atCmd).reply = some []) :
    sendAtCmd modem atCmd expect msg msgSize = some (-1, msg) := by
  rw [sendAtCmd, if_neg hsent]
  rcases h with h | h
  · rw [h]
  · rw [h]

theorem textOf_of_notMem (h : 0 ∉ reply) : textOf reply = reply := cstr_append_nul [] h

/-- A reply without a NUL that fills the buffer. -/
structure Fills (reply : Bytes) : Prop where
  no_nul : 0 ∉ reply
  length_eq : reply.length = AT_MAX_LEN

theorem fills_of_not_terminated (h : ¬ Terminated reply) (hlen : reply.length ≤ AT_MAX_LEN) :
    Fills reply := by
  rw [Terminated, not_or] at h
  exact ⟨h.1, Nat.le_antisymm hlen (Nat.le_of_not_lt h.2)⟩

theorem Fills.exists_cons (h : Fills reply) : ∃ b tl, reply = b :: tl :=
  List.exists_cons_of_length_pos (by rw [h.length_eq]; exact Nat.zero_lt_succ 63)

theorem Fills.overwrite (h : Fills reply) :
    overwrite (List.replicate AT_MAX_LEN 0) 0 reply = some reply := by
  have hbuf := overwrite_reply (Nat.le_of_eq h.length_eq)
  rwa [h.length_eq, Nat.sub_self, List.replicate_zero, List.append_nil] at hbuf

theorem Fills.strstrIn (h : Fills reply) (pat : Bytes) :
    strstrIn reply pat = (strstr pat reply).map some := by
  have hcstr : cstr reply = reply := List.takeWhile_eq_self_iff.2 fun c hc => by
    simpa using fun hzero : c = 0 => h.no_nul (hzero ▸ hc)
  rw [Mat.strstrIn, hcstr, if_neg h.no_nul]
  cases strstr pat reply with
  | none => rfl
  | some i => rfl

/-- The search runs out of a buffer without a NUL. -/
theorem sendAtCmd_overrun (hsent : ¬ (modem atCmd).written < 0)
    (hreply : (modem atCmd).reply = some reply) (h : Fills reply)
    (hmissing : strstr expect reply = none) :
    sendAtCmd modem atCmd expect msg msgSize = none := by
  have hbuf := h.overwrite
  have hsearch := h.strstrIn expect
  obtain ⟨b, tl, rfl⟩ := h.exists_cons
  rw [sendAtCmd, if_neg hsent, hreply]
  simp only [hbuf, hsearch, hmissing, Option.bind_eq_bind, Option.bind_some]
  rfl

/-- What is copied for the caller. -/
def copyMsg (s : Bytes) (msgSize : Int) : Option Bytes → Option (Option Bytes)
  | none => some none
  | some msg =>
    if msgSize > 0 then
      (strncpy msg s (if msgSize > AT_MAX_LEN then (AT_MAX_LEN : Int) else msgSize).toNat).map some
    else some (some msg)

/-- The string in the buffer is searched, and copied if it holds the expected text. -/
theorem sendAtCmd_answered (hsent : ¬ (modem atCmd).written < 0)
    (hreply : (modem atCmd).reply = some reply) (hne : reply ≠ [])
    (hlen : reply.length ≤ AT_MAX_LEN) (h : Terminated reply) :
    sendAtCmd modem atCmd expect msg msgSize =
      if (strstr expect (textOf reply)).isNone then some (-1, msg)
      else (copyMsg (textOf reply) msgSize msg).map fun msg => (0, msg) := by
  have hstring := contains_reply h
  have hsize : (reply ++ List.replicate (AT_MAX_LEN - reply.length) (0 : UInt8)).length =
      AT_MAX_LEN := by
    rw [List.length_append, List.length_replicate]
    omega
  obtain ⟨buf', hstore, hstring', -⟩ :=
    hstring.store_nul (h.textOf_length hlen) (by rw [hsize]; decide)
  have hindex : ((AT_MAX_LEN : Int) - 1) = ((63 : Nat) : Int) := rfl
  have hbuf := overwrite_reply hlen
  obtain ⟨b, tl, rfl⟩ := List.exists_cons_of_ne_nil hne
  rw [sendAtCmd, if_neg hsent, hreply]
  simp only [hbuf, strstrIn_eq hstring, hindex, hstore, hstring'.cstr_eq, Option.bind_eq_bind,
    Option.bind_some]
  cases (strstr expect (textOf (b :: tl))).isNone with
  | true => rfl
  | false =>
    cases msg with
    | none => rfl
    | some msg =>
      by_cases hpos : msgSize > 0
      · simp only [copyMsg, if_pos hpos, Option.map_eq_bind, Option.bind_assoc]
        rfl
      · simp only [copyMsg, if_neg hpos]
        rfl

/-- The NUL that is put over the last byte of the buffer. -/
theorem Fills.store (h : Fills reply) :
    ∃ buf, store reply 63 0 = some buf ∧ cstr buf = reply.take 63 := by
  have hsize : reply.length = 64 := h.length_eq
  have hbuf : reply.set 63 0 = reply.take 63 ++ [0] := by
    rw [List.set_eq_take_append_cons_drop, if_pos (by omega), List.drop_of_length_le (by omega)]
  refine ⟨reply.set 63 0, ?_, ?_⟩
  · rw [CString.store, if_pos (by omega)]
    rfl
  · rw [hbuf, cstr_append_nul [] fun hmem => h.no_nul (List.mem_of_mem_take hmem)]

/-- The expected text is found in a buffer without a NUL. -/
theorem sendAtCmd_filled (hsent : ¬ (modem atCmd).written < 0)
    (hreply : (modem atCmd).reply = some reply) (h : Fills reply)
    (hfound : (strstr expect reply).isSome) :
    sendAtCmd modem atCmd expect msg msgSize =
      (copyMsg (reply.take 63) msgSize msg).map fun msg => (0, msg) := by
  obtain ⟨i, hi⟩ := Option.isSome_iff_exists.1 hfound
  obtain ⟨buf, hstore, hcstr⟩ := h.store
  have hindex : ((AT_MAX_LEN : Int) - 1) = 63 := rfl
  have hbuf := h.overwrite
  have hsearch := h.strstrIn expect
  obtain ⟨b, tl, rfl⟩ := h.exists_cons
  rw [sendAtCmd, if_neg hsent, hreply]
  simp only [hbuf, hsearch, hi, hindex, hstore, hcstr, Option.bind_eq_bind, Option.bind_some,
    Option.map_some]
  cases msg with
  | none => rfl
  | some msg =>
    by_cases hpos : msgSize > 0
    · simp only [copyMsg, if_pos hpos, Option.map_eq_bind, Option.bind_assoc]
      rfl
    · simp only [copyMsg, if_neg hpos]
      rfl

/-- An array that is as large as the caller says gets the copy. -/
theorem copyMsg_isSome {s : Bytes} (hroom : ∀ b, msg = some b → msgSize ≤ b.length) :
    (copyMsg s msgSize msg).isSome := by
  cases msg with
  | none => rfl
  | some b =>
    have hlen := hroom b rfl
    rw [copyMsg]
    split
    · rename_i hpos
      rw [Option.isSome_map, strncpy, overwrite, if_pos]
      · rfl
      · rw [Nat.zero_add, List.length_append, List.length_take, List.length_replicate]
        split
        · omega
        · omega
    · rfl

/-- With room for 64 bytes the copy is the whole string, with its NUL. -/
theorem contains_copyMsg {b s : Bytes} (hs : 0 ∉ s) (hlen : s.length ≤ 63)
    (hsize : AT_MAX_LEN ≤ msgSize) (hroom : msgSize ≤ b.length) :
    ∃ b', copyMsg s msgSize (some b) = some (some b') ∧ Contains b' s ∧ b'.length = b.length := by
  have hpos : msgSize > 0 := Int.lt_of_lt_of_le (by decide) hsize
  have hcount : (if msgSize > AT_MAX_LEN then (AT_MAX_LEN : Int) else msgSize).toNat =
      AT_MAX_LEN := by
    split
    · rfl
    · omega
  obtain ⟨b', hcopy, hstring, hlen'⟩ :=
    @contains_strncpy_padded b s AT_MAX_LEN hs (Nat.lt_succ_of_le hlen) (by omega)
  refine ⟨b', ?_, hstring, hlen'⟩
  rw [copyMsg, if_pos hpos, hcount, hcopy]
  rfl

end Mat
end CFunction
