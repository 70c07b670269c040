import CFunction.Lte.Proofs.MatChecks

/-!
# The SIM state machine

What one call of `mat_uart_check_sim_all` can do is one of three things (`Outcome`), and every
run of calls keeps what they have in common.
-/

namespace CFunction
namespace Mat

open CString

variable {modem : Modem} {ms ms' : Msim} {ret : Int} {sent : List Sent}

/-- The four checks of the registration, all successful, in the order of the source. -/
def registration : List Sent :=
  [(text "AT\r", 0), (text "AT+CPIN?\r", 0), (text "AT+CREG?\r", 0), (text "AT+COPS?\r", 0)]

/-- No `AT+CSQ` is sent before the registration has succeeded. -/
def SignalLast (sent : List Sent) : Prop :=
  ∀ before code after, sent = before ++ (text "AT+CSQ\r", code) :: after → before = registration

theorem signalLast_of_notMem (h : ∀ code, (text "AT+CSQ\r", code) ∉ sent) : SignalLast sent := by
  rintro before code after rfl
  exact absurd (List.mem_append_right before List.mem_cons_self) (h code)

/-- A list of checks that the registration begins with. -/
theorem csq_notMem {sent : List Sent} {r : List Bytes}
    (names : sent.map Prod.fst ++ r = registration.map Prod.fst) (code : Int) :
    (text "AT+CSQ\r", code) ∉ sent := by
  intro h
  have hfst : text "AT+CSQ\r" ∈ registration.map Prod.fst := by
    rw [← names]
    exact List.mem_append_left r (List.mem_map_of_mem h)
  revert hfst
  decide

theorem signalLast_registration (code : Int) :
    SignalLast (registration ++ [(text "AT+CSQ\r", code)]) := by
  intro before code' after h
  rcases List.append_eq_append_iff.1 h with ⟨as, hbefore, has⟩ | ⟨cs, hregistration, hcs⟩
  · cases as with
    | nil => rw [hbefore, List.append_nil]
    | cons a as => simp at has
  · cases cs with
    | nil => rw [hregistration, List.append_nil]
    | cons c cs =>
      obtain ⟨rfl, -⟩ := List.cons.inj hcs
      have hmem : (text "AT+CSQ\r", code') ∈ registration := by rw [hregistration]; simp
      exact absurd hmem (csq_notMem (List.append_nil _) code')

/-- The operator is the one that this modem has named. -/
def Named (modem : Modem) (operator : CharArray 16) : Prop :=
  ∃ reply, (modem (text "AT+COPS?\r")).reply = some reply ∧
    operator.str = operatorName (textOf reply)

/-- The registration succeeds and sets the operator, or a check fails and nothing changes. -/
theorem checkSimFull_spec (legal : LegalModem modem) (ms : Msim) :
    (∃ operator, checkSimFull modem ms =
        some ({ ms with operator := operator }, true, registration) ∧ Named modem operator) ∨
      ∃ sent, checkSimFull modem ms = some (ms, false, sent) ∧
        ∀ code, (text "AT+CSQ\r", code) ∉ sent := by
  unfold checkSimFull
  rcases checkAtOk_spec legal with ⟨atOk, hat, rfl | hfail⟩
  · rcases checkSimReady_spec legal with ⟨cpin, hcpin, rfl | hfail⟩
    · rcases checkSimRegister_spec legal with ⟨creg, hcreg, rfl | hfail⟩
      · simp only [hat, hcpin, hcreg, Option.bind_eq_bind, Option.bind_some,
          if_neg (Int.lt_irrefl 0)]
        rcases checkSimOperator_spec legal ms with ⟨operator, reply, hcops, hreply, hname⟩ | hcops
        · exact Or.inl ⟨operator, by rw [hcops]; rfl, reply, hreply, hname⟩
        · exact Or.inr ⟨_, by rw [hcops]; rfl, csq_notMem (r := []) rfl⟩
      · simp only [hat, hcpin, hcreg, Option.bind_eq_bind, Option.bind_some,
          if_neg (Int.lt_irrefl 0), if_pos hfail]
        exact Or.inr ⟨_, rfl, csq_notMem (r := [text "AT+COPS?\r"]) rfl⟩
    · simp only [hat, hcpin, Option.bind_eq_bind, Option.bind_some, if_neg (Int.lt_irrefl 0),
        if_pos hfail]
      exact Or.inr ⟨_, rfl, csq_notMem (r := [text "AT+CREG?\r", text "AT+COPS?\r"]) rfl⟩
  · simp only [hat, Option.bind_eq_bind, Option.bind_some, if_pos hfail]
    exact Or.inr ⟨_, rfl,
      csq_notMem (r := [text "AT+CPIN?\r", text "AT+CREG?\r", text "AT+COPS?\r"]) rfl⟩

/-- What a call does: it fails, it registers, or it stays registered. -/
inductive Outcome (modem : Modem) (ms : Msim) : Msim → Int → List Sent → Prop
  | failed {ms' : Msim} {sent : List Sent} (state : ms'.state = SIM_ZERO)
      (signal : ms'.signal = ms.signal) (order : ms.state = SIM_ZERO → SignalLast sent) :
      Outcome modem ms ms' (-1) sent
  | registered {operator : CharArray 16} {signal : Int} (state : ms.state = SIM_ZERO)
      (named : Named modem operator) (range : 7 ≤ signal ∧ signal ≤ 98) :
      Outcome modem ms ⟨SIM_REGISTER, signal, operator⟩ 0
        (registration ++ [(text "AT+CSQ\r", 0)])
  | kept {signal : Int} (state : ms.state = SIM_REGISTER) (range : 7 ≤ signal ∧ signal ≤ 98) :
      Outcome modem ms { ms with signal := signal, state := SIM_REGISTER } 0 [(text "AT+CSQ\r", 0)]

theorem msimReset_eq {ms : Msim} (hstate : ms.state = SIM_ZERO ∨ ms.state = SIM_REGISTER)
    (sent : List Sent) :
    msimReset ms sent = some ({ ms with state := SIM_ZERO }, -1, sent) := by
  unfold msimReset
  rcases hstate with h | h <;> rw [h] <;> rfl

/-- Every call in one of the two states returns. -/
theorem matUartCheckSimAll_spec (legal : LegalModem modem)
    (hstate : ms.state = SIM_ZERO ∨ ms.state = SIM_REGISTER) :
    ∃ ms' ret sent, matUartCheckSimAll modem ms = some (ms', ret, sent) ∧
      Outcome modem ms ms' ret sent := by
  unfold matUartCheckSimAll
  rcases hstate with hzero | hregister
  · have hless : ms.state < SIM_READY := by rw [hzero]; decide
    rw [if_pos hless]
    rcases checkSimFull_spec legal ms with ⟨operator, hfull, hnamed⟩ | ⟨sent, hfull, hfree⟩
    · simp only [hfull, Option.bind_eq_bind, Option.bind_some, Bool.not_true, Bool.false_eq_true,
        if_false]
      rcases checkSimSignal_spec legal { ms with operator := operator } with
        ⟨signal, hsignal, hrange⟩ | hsignal
      · simp only [hsignal, Option.bind_some, if_neg (Int.lt_irrefl 0)]
        exact ⟨_, _, _, rfl, .registered hzero hnamed hrange⟩
      · have hfail : (-1 : Int) < 0 := by decide
        have hstate : { ms with operator := operator }.state = SIM_ZERO := hzero
        have hreset := msimReset_eq (Or.inl hstate) (registration ++ [(text "AT+CSQ\r", -1)])
        simp only [hsignal, Option.bind_some, if_pos hfail]
        exact ⟨_, _, _, hreset, .failed rfl rfl fun _ => signalLast_registration (-1)⟩
    · simp only [hfull, Option.bind_eq_bind, Option.bind_some, Bool.not_false, if_true]
      refine ⟨_, _, _, msimReset_eq (Or.inl hzero) _, .failed rfl rfl fun _ => ?_⟩
      exact signalLast_of_notMem hfree
  · have hless : ¬ ms.state < SIM_READY := by rw [hregister]; decide
    rw [if_neg hless]
    simp only [Option.bind_eq_bind, Option.bind_some, Bool.not_true, Bool.false_eq_true, if_false,
      List.nil_append]
    rcases checkSimSignal_spec legal ms with ⟨signal, hsignal, hrange⟩ | hsignal
    · simp only [hsignal, Option.bind_some, if_neg (Int.lt_irrefl 0)]
      exact ⟨_, _, _, rfl, .kept hregister hrange⟩
    · have hfail : (-1 : Int) < 0 := by decide
      simp only [hsignal, Option.bind_some, if_pos hfail]
      refine ⟨_, _, _, msimReset_eq (Or.inr hregister) _, .failed rfl rfl fun hzero => ?_⟩
      rw [hregister] at hzero
      exact absurd hzero (by decide)

/-! ### Runs -/

/-- A call in which all five checks succeeded, with the operator that it left. -/
structure Registration (c : Call) (operator : CharArray 16) : Prop where
  ret : c.ret = 0
  sent : c.sent = registration ++ [(text "AT+CSQ\r", 0)]
  named : Named c.modem operator

/-- What every run of calls keeps. -/
structure Holds (es : List Call) (ms : Msim) : Prop where
  state_range : ms.state = SIM_ZERO ∨ ms.state = SIM_REGISTER
  registered_iff : ms.state = SIM_REGISTER ↔ ∃ past c, es = past ++ [c] ∧ c.ret = 0
  since : ms.state = SIM_REGISTER → ∃ past c later, es = past ++ c :: later ∧
    Registration c ms.operator ∧ ∀ d ∈ later, d.ret = 0 ∧ d.sent = [(text "AT+CSQ\r", 0)]
  signal : ms.signal = 0 ∨ 7 ≤ ms.signal ∧ ms.signal ≤ 98

theorem last_ret_iff (es : List Call) (c : Call) :
    (∃ past d, es ++ [c] = past ++ [d] ∧ d.ret = 0) ↔ c.ret = 0 := by
  constructor
  · rintro ⟨past, d, h, hret⟩
    obtain ⟨-, rfl⟩ := List.append_singleton_inj.1 h
    exact hret
  · exact fun h => ⟨es, c, rfl, h⟩

theorem Holds.step {es : List Call} (h : Holds es ms) {modem : Modem}
    (outcome : Outcome modem ms ms' ret sent) : Holds (es ++ [⟨modem, sent, ret⟩]) ms' := by
  cases outcome with
  | failed state signal order =>
    refine ⟨Or.inl state, ?_, fun hregister => ?_, by rw [signal]; exact h.signal⟩
    · rw [last_ret_iff, state]
      exact ⟨fun h => absurd h (by decide), fun h : (-1 : Int) = 0 => absurd h (by decide)⟩
    · rw [state] at hregister
      exact absurd hregister (by decide)
  | registered state named range =>
    refine ⟨Or.inr rfl, ?_, fun _ => ?_, Or.inr range⟩
    · rw [last_ret_iff]
      exact ⟨fun _ => rfl, fun _ => rfl⟩
    · exact ⟨es, _, [], rfl, ⟨rfl, rfl, named⟩, by simp⟩
  | kept state range =>
    refine ⟨Or.inr rfl, ?_, fun _ => ?_, Or.inr range⟩
    · rw [last_ret_iff]
      exact ⟨fun _ => rfl, fun _ => rfl⟩
    · obtain ⟨past, c, later, rfl, hc, hlater⟩ := h.since state
      refine ⟨past, c, later ++ [_], by rw [List.append_assoc, List.cons_append], hc, ?_⟩
      intro d hd
      rcases List.mem_append.1 hd with hd | hd
      · exact hlater d hd
      · rw [List.mem_singleton.1 hd]
        exact ⟨rfl, rfl⟩

theorem run_holds {opened setup : Int} {es : List Call}
    (init : matUartInit opened setup = (ms, 0)) (run : Run Step ms es ms') : Holds es ms' := by
  apply run.invariant (P := Holds)
  · have hms : ms = ⟨SIM_ZERO, 0, .zero 16⟩ := by
      unfold matUartInit at init
      split at init
      · cases init
      split at init
      · cases init
      · exact (Prod.mk.inj init).1.symm
    subst hms
    refine ⟨Or.inl rfl, ?_, fun h => absurd h (by decide), Or.inl rfl⟩
    constructor
    · intro h
      exact absurd h (by decide)
    · rintro ⟨past, c, h, -⟩
      simp at h
  · rintro es s _ t h ⟨legal, done⟩
    obtain ⟨t', ret', sent', hexec, outcome⟩ := matUartCheckSimAll_spec legal h.state_range
    obtain ⟨rfl, rfl, rfl⟩ : t' = t ∧ ret' = _ ∧ sent' = _ := by
      simpa using Option.some.inj (hexec.symm.trans done)
    exact h.step outcome

/-- After a run of calls, and for whatever call comes next. -/
structure SimRun (es : List Call) (ms : Msim) : Prop where
  state_range : ms.state = SIM_ZERO ∨ ms.state = SIM_REGISTER
  /-- Registered exactly if the most recent call succeeded. -/
  registered_iff : ms.state = SIM_REGISTER ↔ ∃ past c, es = past ++ [c] ∧ c.ret = 0
  /-- Since the last failure one call has made all checks and set the operator, and every later
  one has succeeded in `AT+CSQ`. -/
  since : ms.state = SIM_REGISTER → ∃ past c later, es = past ++ c :: later ∧
    Registration c ms.operator ∧ ∀ d ∈ later, d.ret = 0 ∧ d.sent = [(text "AT+CSQ\r", 0)]
  signal : ms.signal = 0 ∨ 7 ≤ ms.signal ∧ ms.signal ≤ 98
  /-- A further call returns, whatever the modem does. -/
  returns : ∀ modem, LegalModem modem →
    ∃ ms' ret sent, matUartCheckSimAll modem ms = some (ms', ret, sent)
  order : ms.state = SIM_ZERO → ∀ c ms', Step ms c ms' → SignalLast c.sent
  signal_set : ∀ c ms', Step ms c ms' →
    ms'.signal = ms.signal ∨ 7 ≤ ms'.signal ∧ ms'.signal ≤ 98

/-- The state machine over any run of calls after `mat_uart_init`. -/
theorem sim_run {opened setup : Int} {es : List Call}
    (init : matUartInit opened setup = (ms, 0)) (run : Run Step ms es ms') : SimRun es ms' := by
  have h := run_holds init run
  have next : ∀ c t, Step ms' c t → Outcome c.modem ms' t c.ret c.sent := by
    rintro _ t ⟨legal, done⟩
    obtain ⟨t', ret', sent', hexec, outcome⟩ := matUartCheckSimAll_spec legal h.state_range
    obtain ⟨rfl, rfl, rfl⟩ : t' = t ∧ ret' = _ ∧ sent' = _ := by
      simpa using Option.some.inj (hexec.symm.trans done)
    exact outcome
  refine ⟨h.state_range, h.registered_iff, h.since, h.signal, ?_, ?_, ?_⟩
  · intro modem legal
    obtain ⟨t', ret', sent', hexec, -⟩ := matUartCheckSimAll_spec legal h.state_range
    exact ⟨t', ret', sent', hexec⟩
  · rintro hzero ⟨modem, sent, ret⟩ t hstep
    cases next _ t hstep with
    | failed _ _ order => exact order hzero
    | registered _ _ _ => exact signalLast_registration 0
    | kept hregister _ =>
      rw [hregister] at hzero
      exact absurd hzero (by decide)
  · rintro ⟨modem, sent, ret⟩ t hstep
    cases next _ t hstep with
    | failed _ signal _ => exact Or.inl signal
    | registered _ _ range => exact Or.inr range
    | kept _ range => exact Or.inr range

/-- A reply that passes every check. -/
def sampleReply : Bytes := text "+CSQ: 25,0,1 READY \"CMCC\" OK"

theorem sampleReply_legal : LegalReply sampleReply := by
  refine ⟨by decide, by decide, by decide, fun a b h ha => ?_⟩
  have hsplit : textOf sampleReply =
      text "+CSQ: 25,0,1 READY " ++ ascii '"' :: (text "CMCC" ++ ascii '"' :: text " OK") := rfl
  rw [hsplit] at h
  obtain ⟨-, rfl⟩ := quote_split (by decide) ha h
  exact ⟨text "CMCC", text " OK", rfl, by decide, by decide⟩

/-- A call that registers and one that cannot write. -/
theorem sim_run_lost : ∃ (es : List Call) (ms : Msim), es.map (·.ret) = [0, -1] ∧
    ms.signal = 25 ∧ ms.operator.str = text "CMCC" ∧ SimRun es ms := by
  have init : matUartInit 0 0 = (⟨SIM_ZERO, 0, .zero 16⟩, 0) := rfl
  have answering : LegalModem fun _ => ⟨9, some sampleReply⟩ := by
    rintro atCmd reply h
    cases h
    exact sampleReply_legal
  have silent : LegalModem fun _ => ⟨-1, none⟩ := by
    rintro atCmd reply h
    cases h
  have start : Run Step ⟨SIM_ZERO, 0, .zero 16⟩ [] ⟨SIM_ZERO, 0, .zero 16⟩ := .nil
  have run := (start.snoc (Step.call answering rfl)).snoc (Step.call silent rfl)
  have h := sim_run init run
  exact ⟨_, _, rfl, rfl, rfl, h⟩

end Mat
end CFunction
