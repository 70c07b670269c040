import CFunction.Lte.Proofs.SendAtCmd

/-!
# The checks of the SIM

With a modem whose replies are legal every check returns, and what it does to `msim_t` is told by
its code.
-/

namespace CFunction
namespace Mat

open CString

variable {modem : Modem} {ms : Msim} {atCmd expect : Bytes}

/-! ### One exchange -/

/-- A call fails, or what it finds is the text of the reply. -/
theorem sendAtCmd_cases (legal : LegalModem modem) (atCmd expect : Bytes) (msg : Option Bytes)
    (msgSize : Int) : sendAtCmd modem atCmd expect msg msgSize = some (-1, msg) ∨
      ∃ reply, (modem atCmd).reply = some reply ∧ sendAtCmd modem atCmd expect msg msgSize =
        (copyMsg (textOf reply) msgSize msg).map fun msg => (0, msg) := by
  by_cases hwrite : (modem atCmd).written < 0
  · exact .inl (sendAtCmd_unsent hwrite)
  · cases hreply : (modem atCmd).reply with
    | none => exact .inl (sendAtCmd_unanswered hwrite (.inl hreply))
    | some reply =>
      by_cases hnil : reply = []
      · exact .inl (sendAtCmd_unanswered hwrite (.inr (hnil ▸ hreply)))
      · have hshort := (legal atCmd reply hreply).short
        have hanswer := @sendAtCmd_answered modem atCmd expect reply msg msgSize hwrite hreply
          hnil (Nat.le_succ_of_le hshort) (.inr (Nat.lt_succ_of_le hshort))
        rw [hanswer]
        split
        · exact .inl rfl
        · exact .inr ⟨reply, rfl, rfl⟩

/-- A command whose reply is only looked at. -/
theorem sendAtCmd_quiet (legal : LegalModem modem) (atCmd expect : Bytes) :
    ∃ ret, sendAtCmd modem atCmd expect none 0 = some (ret, none) ∧ (ret = 0 ∨ ret = -1) := by
  rcases sendAtCmd_cases legal atCmd expect none 0 with hfail | ⟨reply, -, hok⟩
  · exact ⟨-1, hfail, .inr rfl⟩
  · exact ⟨0, hok, .inl rfl⟩

/-- A command whose reply is copied to `msg`. -/
theorem sendAtCmd_asked (legal : LegalModem modem) (atCmd expect : Bytes) {msg : Bytes}
    (hmsg : msg.length = AT_MAX_LEN) :
    sendAtCmd modem atCmd expect (some msg) AT_MAX_LEN = some (-1, some msg) ∨
      ∃ msg' reply, sendAtCmd modem atCmd expect (some msg) AT_MAX_LEN = some (0, some msg') ∧
        (modem atCmd).reply = some reply ∧ Contains msg' (textOf reply) ∧
        msg'.length = AT_MAX_LEN := by
  rcases sendAtCmd_cases legal atCmd expect (some msg) AT_MAX_LEN with
    hfail | ⟨reply, hreply, hok⟩
  · exact .inl hfail
  · have htext : (textOf reply).length ≤ 63 :=
      Nat.le_trans (textOf_length_le reply) (legal atCmd reply hreply).short
    have hroom : (AT_MAX_LEN : Int) ≤ msg.length := Int.le_of_eq (by rw [hmsg])
    obtain ⟨msg', hcopy, hcontains, hlen⟩ :=
      contains_copyMsg (zero_notMem_textOf reply) htext (Int.le_refl _) hroom
    refine .inr ⟨msg', reply, ?_, hreply, hcontains, hlen.trans hmsg⟩
    rw [hok, hcopy]
    rfl

/-- A command whose reply is asked for: on success the buffer holds the text of the reply. -/
theorem askFor_spec (legal : LegalModem modem) (atCmd expect : Bytes) :
    (∃ buf, askFor modem atCmd expect = some (-1, buf)) ∨
      ∃ buf reply, askFor modem atCmd expect = some (0, buf) ∧
        (modem atCmd).reply = some reply ∧ Contains buf (textOf reply) ∧
        buf.length = AT_MAX_LEN := by
  unfold askFor
  have hzeros : (List.replicate AT_MAX_LEN (0 : UInt8)).length = AT_MAX_LEN := List.length_replicate
  rcases sendAtCmd_asked legal atCmd expect hzeros with
    hfail | ⟨buf, reply, hok, hreply, hcontains, hlen⟩
  · exact Or.inl ⟨List.replicate AT_MAX_LEN 0, by simp [hfail]⟩
  · have htext : (textOf reply).length ≤ 63 :=
      Nat.le_trans (textOf_length_le reply) (legal atCmd reply hreply).short
    obtain ⟨buf', hstore, hcontains', hlen'⟩ :=
      hcontains.store_nul (i := 63) htext (by rw [hlen]; decide)
    refine Or.inr ⟨buf', reply, ?_, hreply, hcontains', hlen'.trans hlen⟩
    have hindex : (63 : Int) = ((63 : Nat) : Int) := rfl
    simp only [hok, Option.bind_eq_bind, Option.bind_some, if_neg (Int.lt_irrefl 0)]
    rw [hindex, hstore]
    rfl

/-! ### The checks -/

theorem checkAtOk_spec (legal : LegalModem modem) :
    ∃ ret, checkAtOk modem = some ret ∧ (ret = 0 ∨ ret < 0) := by
  rcases sendAtCmd_quiet legal (text "AT\r") (text "OK") with ⟨ret, hsend, rfl | rfl⟩
  · exact ⟨0, by simp [checkAtOk, hsend], Or.inl rfl⟩
  · exact ⟨-1, by simp [checkAtOk, hsend], Or.inr (by decide)⟩

theorem checkSimReady_spec (legal : LegalModem modem) :
    ∃ ret, checkSimReady modem = some ret ∧ (ret = 0 ∨ ret < 0) := by
  rcases sendAtCmd_quiet legal (text "AT+CPIN?\r") (text "READY") with ⟨ret, hsend, rfl | rfl⟩
  · exact ⟨0, by simp [checkSimReady, hsend], Or.inl rfl⟩
  · exact ⟨-1, by simp [checkSimReady, hsend], Or.inr (by decide)⟩

theorem checkSimRegister_spec (legal : LegalModem modem) :
    ∃ ret, checkSimRegister modem = some ret ∧ (ret = 0 ∨ ret < 0) := by
  unfold checkSimRegister
  rcases askFor_spec legal (text "AT+CREG?\r") (text "OK") with
    ⟨buf, hask⟩ | ⟨buf, reply, hask, -, hcontains, -⟩
  · exact ⟨-1, by simp [hask], Or.inr (by decide)⟩
  · simp only [hask, strstrIn_eq hcontains, Option.bind_eq_bind, Option.bind_some,
      if_neg (Int.lt_irrefl 0)]
    split
    · exact ⟨-2, rfl, Or.inr (by decide)⟩
    · exact ⟨0, rfl, Or.inl rfl⟩

/-- The digits in front of a comma that is not one of the first two characters. -/
theorem readSignal_spec {buf : Bytes} {i : Nat} (h2 : 2 ≤ i) (hi : i ≤ buf.length) :
    ∃ signal, readSignal buf i = some signal ∧ 0 ≤ signal ∧ signal ≤ 99 := by
  have hone : load buf ((i : Int) - 1) = some (buf[i - 1]) := by
    rw [show (i : Int) - 1 = ((i - 1 : Nat) : Int) by omega, load_nat, List.getElem?_eq_getElem]
  have htwo : load buf ((i : Int) - 2) = some (buf[i - 2]) := by
    rw [show (i : Int) - 2 = ((i - 2 : Nat) : Int) by omega, load_nat, List.getElem?_eq_getElem]
  simp only [readSignal, hone, htwo, Option.bind_eq_bind, Option.bind_some]
  refine ⟨_, rfl, ?_⟩
  split <;> split <;> omega

/-- The loop reads the digits in front of the first comma, or finds none. -/
theorem signalLoop_spec {buf s : Bytes} (h : Contains buf s)
    (first : s[0]? ≠ some (ascii ',')) (second : s[1]? ≠ some (ascii ',')) {rounds i : Nat}
    (hrounds : i + rounds = s.length) :
    ∃ signal, signalLoop buf rounds i = some signal ∧ 0 ≤ signal ∧ signal ≤ 99 := by
  obtain ⟨-, rest, hbuf⟩ := h
  induction rounds generalizing i with
  | zero => exact ⟨0, rfl, by decide, by decide⟩
  | succ rounds ih =>
    have hi : i < s.length := by omega
    have hload : load buf i = some s[i] := by
      rw [load_nat, hbuf, List.getElem?_append_left hi, List.getElem?_eq_getElem hi]
    simp only [signalLoop, hload, Option.bind_eq_bind, Option.bind_some]
    by_cases hc : s[i] = ascii ','
    · rw [if_pos hc]
      have hget : s[i]? = some (ascii ',') := by rw [List.getElem?_eq_getElem hi, hc]
      have h0 : i ≠ 0 := by rintro rfl; exact first hget
      have h1 : i ≠ 1 := by rintro rfl; exact second hget
      have hlen : i ≤ buf.length := by rw [hbuf, List.length_append]; omega
      exact readSignal_spec (by omega) hlen
    · rw [if_neg hc]
      exact ih (by omega)

/-- The signal is set to a value in `7..98`, or the check fails and nothing changes. -/
theorem checkSimSignal_spec (legal : LegalModem modem) (ms : Msim) :
    (∃ signal, checkSimSignal modem ms = some ({ ms with signal := signal }, 0) ∧
        7 ≤ signal ∧ signal ≤ 98) ∨
      checkSimSignal modem ms = some (ms, -1) := by
  unfold checkSimSignal
  rcases askFor_spec legal (text "AT+CSQ\r") (text "+CSQ") with
    ⟨buf, hask⟩ | ⟨buf, reply, hask, hreply, hcontains, -⟩
  · exact Or.inr (by simp [hask])
  · have hlegal := legal _ reply hreply
    obtain ⟨signal, hloop, hnonneg, hle⟩ :=
      signalLoop_spec (i := 0) hcontains hlegal.first hlegal.second (Nat.zero_add _)
    simp only [hask, hcontains.strlen_eq, hloop, Option.bind_eq_bind, Option.bind_some,
      if_neg (Int.lt_irrefl 0)]
    by_cases hlow : signal < 7 ∨ signal = 99
    · exact Or.inr (if_pos hlow)
    · exact Or.inl ⟨signal, if_neg hlow, by omega, by omega⟩

/-- Looking for a quote. -/
theorem strstr_quote (a b : Bytes) (h : ascii '"' ∉ a) :
    strstr [ascii '"'] (a ++ ascii '"' :: b) = some a.length := by
  induction a with
  | nil => rfl
  | cons c a ih =>
    rw [List.mem_cons, not_or] at h
    rw [List.cons_append, strstr_cons_of_ne h.1, ih h.2]
    rfl

theorem strstr_quote_none {s : Bytes} (h : ascii '"' ∉ s) : strstr [ascii '"'] s = none := by
  induction s with
  | nil => rfl
  | cons c s ih =>
    rw [List.mem_cons, not_or] at h
    rw [strstr_cons_of_ne h.1, ih h.2]
    rfl

/-- The first quote splits a text in one way. -/
theorem quote_split {a b a' b' : Bytes} (ha : ascii '"' ∉ a) (ha' : ascii '"' ∉ a')
    (h : a ++ ascii '"' :: b = a' ++ ascii '"' :: b') : a = a' ∧ b = b' := by
  have hlen : a.length = a'.length := by
    have hfirst := strstr_quote a b ha
    rw [h, strstr_quote a' b' ha'] at hfirst
    exact (Option.some.inj hfirst).symm
  obtain ⟨hsame, hrest⟩ := List.append_inj h hlen
  exact ⟨hsame, (List.cons.inj hrest).2⟩

theorem operatorName_eq {a name c : Bytes} (ha : ascii '"' ∉ a) (hname : ascii '"' ∉ name) :
    operatorName (a ++ ascii '"' :: (name ++ ascii '"' :: c)) = name := by
  rw [operatorName, dropWhile_ne_append ha, List.drop_one, List.tail_cons]
  exact takeWhile_ne_append hname c

/-- The string behind the first quote. -/
theorem contains_behind_quote {buf a b : Bytes} (h : Contains buf (a ++ ascii '"' :: b)) :
    Contains (buf.drop (a.length + 1)) b := by
  rw [List.append_cons] at h
  have hrest := h.drop
  rw [List.length_append, List.length_singleton] at hrest
  exact hrest

/-- Cutting the buffer at the second quote leaves the name behind the first one. -/
theorem cut_at_quote {buf a name c : Bytes}
    (h : Contains buf (a ++ ascii '"' :: (name ++ ascii '"' :: c))) (hname : ascii '"' ∉ name) :
    strstrIn (buf.drop (a.length + 1)) [ascii '"'] = some (some name.length) ∧
      ∃ buf', store buf ((a.length + 1 + name.length : Nat) : Int) 0 = some buf' ∧
        cstr (buf'.drop (a.length + 1)) = name := by
  have hbehind := contains_behind_quote h
  refine ⟨by rw [strstrIn_eq hbehind, strstr_quote name c hname], ?_⟩
  have hnul : 0 ∉ name := fun hmem => hbehind.1 (List.mem_append_left _ hmem)
  obtain ⟨-, rest, rfl⟩ := h
  have hstore : (a ++ ascii '"' :: (name ++ ascii '"' :: c) ++ 0 :: rest).set
      (a.length + 1 + name.length) 0 = (a ++ [ascii '"']) ++ (name ++ 0 :: (c ++ 0 :: rest)) := by
    rw [List.append_assoc, List.set_append_right _ _ (by omega),
      show a.length + 1 + name.length - a.length = name.length + 1 by omega]
    simp
  refine ⟨_, store_nat 0 ?_, ?_⟩
  · simp only [List.length_append, List.length_cons]
    omega
  · rw [hstore, List.drop_left' (by simp)]
    exact cstr_append_nul _ hnul

section Operator

variable {buf a name : Bytes}

/-- Without a quote the check fails. -/
theorem checkSimOperator_unquoted {s : Bytes} (ms : Msim)
    (hask : askFor modem (text "AT+COPS?\r") (text "OK") = some (0, buf)) (hbuf : Contains buf s)
    (hs : ascii '"' ∉ s) : checkSimOperator modem ms = some (ms, -1) := by
  rw [checkSimOperator, hask]
  simp only [strstrIn_eq hbuf, strstr_quote_none hs, Option.bind_eq_bind, Option.bind_some,
    if_neg (Int.lt_irrefl 0)]

/-- With one quote the store through `pend` has no place to go. -/
theorem checkSimOperator_unclosed {b : Bytes} (ms : Msim)
    (hask : askFor modem (text "AT+COPS?\r") (text "OK") = some (0, buf))
    (hbuf : Contains buf (a ++ ascii '"' :: b)) (ha : ascii '"' ∉ a) (hb : ascii '"' ∉ b) :
    checkSimOperator modem ms = none := by
  rw [checkSimOperator, hask]
  simp only [strstrIn_eq hbuf, strstr_quote a b ha, strstrIn_eq (contains_behind_quote hbuf),
    strstr_quote_none hb,
    Option.bind_eq_bind, Option.bind_some, if_neg (Int.lt_irrefl 0)]

/-- With two quotes the name between them is copied with its NUL. -/
theorem checkSimOperator_quoted {c : Bytes} (ms : Msim)
    (hask : askFor modem (text "AT+COPS?\r") (text "OK") = some (0, buf))
    (hbuf : Contains buf (a ++ ascii '"' :: (name ++ ascii '"' :: c))) (ha : ascii '"' ∉ a)
    (hname : ascii '"' ∉ name) : checkSimOperator modem ms =
      (ms.operator.copy name (name.length + 1)).map fun operator =>
        ({ ms with operator := operator }, 0) := by
  obtain ⟨hsecond, buf', hstore, hcstr⟩ := cut_at_quote hbuf hname
  have hcount : a.length + 1 + name.length - (a.length + 1) + 1 = name.length + 1 := by
    rw [Nat.add_sub_cancel_left]
  rw [checkSimOperator, hask]
  simp only [strstrIn_eq hbuf, strstr_quote a _ ha, hsecond, hstore, hcstr, hcount,
    Option.bind_eq_bind, Option.bind_some, if_neg (Int.lt_irrefl 0), Option.map_eq_bind]
  rfl

/-- The operator is set to the name between the first two quotes, or the check fails and nothing
changes. -/
theorem checkSimOperator_spec (legal : LegalModem modem) (ms : Msim) :
    (∃ operator reply, checkSimOperator modem ms = some ({ ms with operator := operator }, 0) ∧
        (modem (text "AT+COPS?\r")).reply = some reply ∧
        operator.str = operatorName (textOf reply)) ∨
      checkSimOperator modem ms = some (ms, -1) := by
  rcases askFor_spec legal (text "AT+COPS?\r") (text "OK") with
    ⟨buf, hask⟩ | ⟨buf, reply, hask, hreply, hcontains, -⟩
  · exact Or.inr (by simp [checkSimOperator, hask])
  · by_cases hquote : ascii '"' ∈ textOf reply
    · obtain ⟨a, b, hsplit, ha⟩ := List.eq_append_cons_of_mem hquote
      obtain ⟨name, c, rfl, hname, hshort⟩ := (legal _ reply hreply).quoted a b hsplit ha
      rw [hsplit] at hcontains
      have hnul : 0 ∉ name := by
        intro h
        exact hcontains.1 (List.mem_append_right a (List.mem_cons_of_mem _
          (List.mem_append_left _ h)))
      obtain ⟨operator, hcopy, hstr⟩ := ms.operator.contains_copy hnul (Nat.lt_succ_of_le hshort)
      refine Or.inl ⟨operator, reply, ?_, hreply, ?_⟩
      · rw [checkSimOperator_quoted ms hask hcontains ha hname, hcopy]
        rfl
      · rw [hsplit, operatorName_eq ha hname]
        exact hstr.cstr_eq
    · exact Or.inr (checkSimOperator_unquoted ms hask hcontains hquote)

end Operator

end Mat
end CFunction
