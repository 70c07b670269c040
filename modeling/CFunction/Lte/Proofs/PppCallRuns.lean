import CFunction.Lte.PppCall

/-!
# Runs of the PPP supervisor

Only two statements clear the STOP bit: the assignment in front of the loop and the one after
`pppd_stop`. Between a `fork` and the ONLINE bit there is neither, so a child that the handler
reaps in between is still noted in the STOP bit when ONLINE is set.
-/

namespace CFunction
namespace PppCall

variable {es : List Event} {s : Supervisor} {e : Event}

/-- The bits of `pppd_status`. -/
def Stop (s : Supervisor) : Prop := s.status &&& PPPD_STATUS_STOP ≠ 0
def Online (s : Supervisor) : Prop := s.status &&& PPPD_STATUS_ONLINE ≠ 0

/-- A child has been forked, and none has been reaped since the last `fork`. -/
def Fresh (es : List Event) : Prop :=
  ∃ past later, es = past ++ .fork :: later ∧ .fork ∉ later ∧ .reap ∉ later

theorem fresh_fork (es : List Event) : Fresh (es ++ [.fork]) := ⟨es, [], rfl, by simp, by simp⟩

theorem Fresh.snoc (h : Fresh es) (hfork : e ≠ .fork) (hreap : e ≠ .reap) :
    Fresh (es ++ [e]) := by
  obtain ⟨past, later, rfl, hf, hr⟩ := h
  refine ⟨past, later ++ [e], by rw [List.append_assoc, List.cons_append], ?_, ?_⟩
  · simp [hf, hfork.symm]
  · simp [hr, hreap.symm]

theorem eventOf_ne_reap (pc : Pc) (ok : Bool) : eventOf pc ok ≠ .reap := by
  cases pc <;> cases ok <;> decide

/-- Between the `fork` and the end of the branch that sets ONLINE. -/
def Pc.starting : Pc → Bool
  | .testTimeout | .access | .pollStop | .timedOut | .openLink | .clearStart | .setOnline => true
  | _ => false

/-! ### Bits -/

theorem and_twoPow_ne_zero {w i : Nat} (x : BitVec w) (hi : i < w) :
    x &&& BitVec.twoPow w i ≠ 0#w ↔ x.getLsbD i = true := by
  rw [BitVec.and_twoPow]
  cases x.getLsbD i
  · simp
  · have hbit : (BitVec.twoPow w i).getLsbD i = true := by simp [hi]
    have hne : BitVec.twoPow w i ≠ 0#w := by
      intro h
      simp [h] at hbit
    simpa using hne

theorem stop_iff : Stop s ↔ s.status.getLsbD 0 = true :=
  and_twoPow_ne_zero s.status (by decide : 0 < 32)

theorem online_iff : Online s ↔ s.status.getLsbD 2 = true :=
  and_twoPow_ne_zero s.status (by decide : 2 < 32)

/-- One of the three bits is set. -/
def Marked (s : Supervisor) : Prop :=
  s.status &&& (PPPD_STATUS_START ||| PPPD_STATUS_STOP ||| PPPD_STATUS_ONLINE) ≠ 0

theorem marked_of_bit {i : Nat} (hi : i < 3) (h : s.status.getLsbD i = true) : Marked s := by
  intro hzero
  have hbit := congrArg (fun x => BitVec.getLsbD x i) hzero
  have hmask : ((PPPD_STATUS_START ||| PPPD_STATUS_STOP) ||| PPPD_STATUS_ONLINE).getLsbD i =
    true := by
    revert hi
    have : ∀ j : Fin 3, (PPPD_STATUS_START ||| PPPD_STATUS_STOP ||| PPPD_STATUS_ONLINE).getLsbD j.1
      = true := by decide
    exact fun hi => this ⟨i, hi⟩
  simp only [BitVec.getLsbD_and, h, hmask] at hbit
  simp at hbit

/-! ### One statement -/

/-- What a statement does to `pppd_status`. -/
def Pc.assign (pc : Pc) (status : BitVec 32) : BitVec 32 :=
  match pc with
  | .setStart | .restart => PPPD_STATUS_START
  | .startFailed | .pingStop => PPPD_STATUS_STOP
  | .clearStart => status &&& ~~~PPPD_STATUS_START
  | .setOnline => status ||| PPPD_STATUS_ONLINE
  | _ => status

theorem mainStep_status (s : Supervisor) (ok : Bool) :
    (s.mainStep ok).status = s.pc.assign s.status := by
  obtain ⟨pc, status, timeout, linkNum, errorNum⟩ := s
  cases pc with
  | access => cases ok <;> rfl
  | timedOut =>
    dsimp only [Supervisor.mainStep, Pc.assign]
    split <;> rfl
  | ping =>
    dsimp only [Supervisor.mainStep, Pc.assign]
    split <;> rfl
  | _ => rfl

/-- The branch that sets ONLINE is entered by a `fork` only. -/
theorem mainStep_starting {s : Supervisor} {ok : Bool} (h : (s.mainStep ok).pc.starting = true) :
    s.pc.starting = true ∨ eventOf s.pc ok = .fork := by
  obtain ⟨pc, status, timeout, linkNum, errorNum⟩ := s
  dsimp only
  cases pc with
  | pppdExec => cases ok with
    | true => exact Or.inr rfl
    | false => cases h
  | top | testStart | testOnline =>
    dsimp only [Supervisor.mainStep] at h
    split at h <;> cases h
  | ping =>
    dsimp only [Supervisor.mainStep] at h
    split at h
    · dsimp only at h
      split at h <;> cases h
    · cases h
  | testTimeout | access | pollStop | timedOut | openLink | clearStart | setOnline =>
    exact Or.inl rfl
  | _ => cases h

/-- The assignment in front of the loop is executed once. -/
theorem mainStep_pc_ne (s : Supervisor) (ok : Bool) : (s.mainStep ok).pc ≠ .setStart := by
  obtain ⟨pc, status, timeout, linkNum, errorNum⟩ := s
  cases pc with
  | top | testStart | pppdExec | testTimeout | pollStop | openLink | testOnline =>
    dsimp only [Supervisor.mainStep]
    split <;> nofun
  | access => cases ok <;> nofun
  | timedOut =>
    dsimp only [Supervisor.mainStep]
    split <;> nofun
  | ping =>
    dsimp only [Supervisor.mainStep]
    split
    · dsimp only
      split <;> nofun
    · nofun
  | _ => nofun

/-- Only the two assignments of START clear the STOP bit. -/
theorem stop_mainStep {ok : Bool} (h : Stop s) (hset : s.pc ≠ .setStart)
    (hrestart : s.pc ≠ .restart) : Stop (s.mainStep ok) := by
  rw [stop_iff] at h ⊢
  rw [mainStep_status]
  cases hpc : s.pc with
  | setStart => exact absurd hpc hset
  | restart => exact absurd hpc hrestart
  | startFailed | pingStop => simp [Pc.assign]
  | clearStart | setOnline => simp [Pc.assign, h]
  | _ => exact h

/-- ONLINE is set by one statement, and the assignments clear it. -/
theorem online_mainStep {ok : Bool} (h : Online (s.mainStep ok)) :
    s.pc = .setOnline ∨ Online s ∧ s.pc ≠ .setStart ∧ s.pc ≠ .restart := by
  rw [online_iff] at h ⊢
  rw [mainStep_status] at h
  cases hpc : s.pc with
  | setOnline => exact Or.inl rfl
  | setStart | restart | startFailed | pingStop =>
    rw [hpc] at h
    simp [Pc.assign] at h
  | clearStart =>
    rw [hpc] at h
    refine Or.inr ⟨?_, nofun, nofun⟩
    simp only [Pc.assign, BitVec.getLsbD_and, Bool.and_eq_true] at h
    exact h.1
  | _ =>
    rw [hpc] at h
    exact Or.inr ⟨h, nofun, nofun⟩

/-- One of the bits stays set, but for the moment between `clearStart` and `setOnline`. -/
theorem marked_mainStep {ok : Bool} (h : s.pc ≠ .setStart → s.pc ≠ .setOnline → Marked s)
    (hset : (s.mainStep ok).pc ≠ .setOnline) : Marked (s.mainStep ok) := by
  have hstatus := mainStep_status s ok
  cases hpc : s.pc with
  | setStart | restart =>
    rw [hpc] at hstatus
    exact marked_of_bit (i := 1) (by decide) (by rw [hstatus]; simp [Pc.assign])
  | startFailed | pingStop =>
    rw [hpc] at hstatus
    exact marked_of_bit (i := 0) (by decide) (by rw [hstatus]; simp [Pc.assign])
  | setOnline =>
    rw [hpc] at hstatus
    exact marked_of_bit (i := 2) (by decide) (by rw [hstatus]; simp [Pc.assign])
  | clearStart =>
    rw [Supervisor.mainStep, hpc] at hset
    exact absurd rfl hset
  | _ =>
    have hold : Marked s := h (by rw [hpc]; nofun) (by rw [hpc]; nofun)
    rw [hpc] at hstatus
    rw [Marked, hstatus]
    exact hold

/-! ### Runs -/

structure Holds (es : List Event) (s : Supervisor) : Prop where
  unforked : s.pc = .setStart → .fork ∉ es
  starting : s.pc.starting = true → Stop s ∨ Fresh es
  online : Online s → Stop s ∨ Fresh es
  marked : s.pc ≠ .setStart → s.pc ≠ .setOnline → Marked s
  reaped : ∀ past later, es = past ++ .reap :: later → .fork ∈ past →
    .stmt .restart ∉ later → Stop s

theorem holds_init : Holds [] .init := by
  refine ⟨fun _ => List.not_mem_nil, fun h => absurd h (by decide), fun h => absurd rfl h,
    fun h => absurd rfl h, ?_⟩
  intro past later h
  simp at h

theorem stop_reap (s : Supervisor) : Stop s.reap := by
  rw [stop_iff]
  simp [Supervisor.reap]

theorem Holds.reap (h : Holds es s) : Holds (es ++ [.reap]) s.reap := by
  refine ⟨fun hpc => ?_, fun _ => Or.inl (stop_reap s), fun _ => Or.inl (stop_reap s),
    fun _ _ => ?_, fun _ _ _ _ _ => stop_reap s⟩
  · simpa using h.unforked hpc
  · exact marked_of_bit (i := 0) (by decide) (by simp [Supervisor.reap])

theorem eventOf_restart {pc : Pc} {ok : Bool} (h : pc = .restart) :
    eventOf pc ok = .stmt .restart := by
  rw [h]
  rfl

theorem Holds.main (h : Holds es s) (ok : Bool) :
    Holds (es ++ [eventOf s.pc ok]) (s.mainStep ok) := by
  have hreap := eventOf_ne_reap s.pc ok
  have fresh : Fresh es → Fresh (es ++ [eventOf s.pc ok]) := by
    intro hfresh
    by_cases hfork : eventOf s.pc ok = .fork
    · rw [hfork]
      exact fresh_fork es
    · exact hfresh.snoc hfork hreap
  refine ⟨fun hpc => absurd hpc (mainStep_pc_ne s ok), fun hstarting => ?_, fun honline => ?_,
    fun _ hset => marked_mainStep h.marked hset, ?_⟩
  · rcases mainStep_starting hstarting with hpc | hfork
    · refine (h.starting hpc).imp (fun hstop => stop_mainStep hstop ?_ ?_) fresh
      · intro e
        rw [e] at hpc
        cases hpc
      · intro e
        rw [e] at hpc
        cases hpc
    · rw [hfork]
      exact Or.inr (fresh_fork es)
  · rcases online_mainStep honline with hpc | ⟨hold, hset, hrestart⟩
    · refine (h.starting (by rw [hpc]; rfl)).imp (fun hstop => stop_mainStep hstop ?_ ?_) fresh
      · rw [hpc]
        nofun
      · rw [hpc]
        nofun
    · exact (h.online hold).imp (fun hstop => stop_mainStep hstop hset hrestart) fresh
  · intro past later hes hfork hrestart
    rcases List.eq_nil_or_concat' later with rfl | ⟨later, e, rfl⟩
    · obtain ⟨-, he⟩ := List.append_singleton_inj.1 hes
      exact absurd he hreap
    · rw [← List.cons_append, ← List.append_assoc] at hes
      obtain ⟨hold, rfl⟩ := List.append_singleton_inj.1 hes
      rw [List.mem_append, not_or, List.mem_singleton] at hrestart
      apply stop_mainStep (h.reaped past later hold hfork hrestart.1)
      · intro hpc
        apply h.unforked hpc
        rw [hold]
        exact List.mem_append_left _ hfork
      · exact fun hpc => hrestart.2 (eventOf_restart hpc).symm

theorem run_holds (run : Run Step .init es s) : Holds es s := by
  apply run.invariant (P := Holds) holds_init
  intro es s e t h hstep
  cases hstep with
  | main ok => exact h.main ok
  | handler => exact h.reap

/-- What holds in every reachable state. -/
structure NeverMistaken (es : List Event) (s : Supervisor) : Prop where
  /-- Exactly ONLINE means that no child has been reaped since the most recent `fork`. -/
  online : s.status = PPPD_STATUS_ONLINE → Fresh es
  /-- From a child reaped after a `fork` on, the STOP bit is set until the assignment after
  `pppd_stop`. -/
  stop_stays : ∀ past later, es = past ++ .reap :: later → .fork ∈ past →
    .stmt .restart ∉ later → s.status &&& PPPD_STATUS_STOP ≠ 0
  top : s.pc = .top →
    s.status &&& (PPPD_STATUS_START ||| PPPD_STATUS_STOP ||| PPPD_STATUS_ONLINE) ≠ 0

/-- The supervisor never takes a dead `pppd` for an online one, wherever the handler interrupts
the main thread. -/
theorem ppp_run_never_mistaken (run : Run Step .init es s) : NeverMistaken es s := by
  have h := run_holds run
  refine ⟨fun honline => ?_, h.reaped, fun htop => h.marked (by rw [htop]; nofun)
    (by rw [htop]; nofun)⟩
  have hset : Online s := by
    rw [online_iff, honline]
    decide
  rcases h.online hset with hstop | hfresh
  · rw [stop_iff, honline] at hstop
    exact absurd hstop (by decide)
  · exact hfresh

/-- `pppd` dies between the two statements that mark it as online. -/
theorem ppp_run_never_mistaken_dies : ∃ (es : List Event) (s : Supervisor), .fork ∈ es ∧
    s.pc = .testOnline ∧ s.status = PPPD_STATUS_STOP ||| PPPD_STATUS_ONLINE ∧
    NeverMistaken es s := by
  have start : Run Step .init [] .init := .nil
  have forked := ((((start.snoc (.main true)).snoc (.main true)).snoc (.main true)).snoc
    (.main true)).snoc (.main true)
  have linked := (((forked.snoc (.main true)).snoc (.main true)).snoc (.main true)).snoc
    (.main true)
  have run := ((linked.snoc (.main true)).snoc .handler).snoc (.main true)
  have h := ppp_run_never_mistaken run
  refine ⟨_, _, ?_, ?_, ?_, h⟩
  · decide
  · decide
  · decide

end PppCall
end CFunction
