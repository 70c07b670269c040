import CFunction.Lte.Proofs.PppCallRuns
import Mathlib.Data.List.Induction

/-!
# Resets for lost pings

`error_num` counts failed pings behind the last answer and the last reset. A connection that ends
in another way (a child that is reaped, a start that fails) leaves the count as it is, and the next
connection goes on counting.
-/

namespace CFunction
namespace PppCall

variable {es past later : List Event} {s : Supervisor} {e : Event} {n : Nat}

/-- The answer of a ping. -/
def Event.answer : Event → Option Bool
  | .ping answered => some answered
  | _ => none

/-- The answers of the pings, oldest first. -/
def pings (es : List Event) : List Bool := es.filterMap Event.answer

/-- The last six pings have failed, and all of them have been made since the most recent
`pppd_start` that was successful. -/
def LostOnConnection (es : List Event) : Prop :=
  ∃ past later, es = past ++ .stmt .clearStart :: later ∧ .stmt .clearStart ∉ later ∧
    List.replicate (PING_COUNT + 1).toNat false <:+ pings later

/-- The ping branch assigns STOP only for a connection that has lost six pings in a row. -/
def ResetsForLostPings : List Event → Prop :=
  Throughout fun past e => e = .stmt .pingStop → LostOnConnection past

/-- What an event makes of the number of failed pings. -/
def Event.count (n : Nat) : Event → Nat
  | .ping true | .stmt .pingStop => 0
  | .ping false => n + 1
  | _ => n

/-- The failed pings behind the last answer and the last reset, of any connection. -/
def failures (es : List Event) : Nat := es.foldl Event.count 0

/-- A successful `pppd_start` that finds failed pings of an earlier connection in `error_num` is
followed by an answered ping before the ping branch resets. -/
def AnswersBeforeReset (es : List Event) : Prop :=
  ∀ past later rest, es = past ++ .stmt .clearStart :: (later ++ .stmt .pingStop :: rest) →
    failures past ≠ 0 → .ping true ∈ later

/-! ### Counting -/

theorem pings_append (es es' : List Event) : pings (es ++ es') = pings es ++ pings es' :=
  List.filterMap_append

/-- An answer ends the count that came before it. -/
theorem count_of_answered (h : .ping true ∈ es) (n : Nat) :
    es.foldl Event.count n = es.foldl Event.count 0 := by
  obtain ⟨past, later, rfl⟩ := List.append_of_mem h
  rw [List.foldl_append, List.foldl_append]
  rfl

/-- Without an answer and a reset all pings are counted. -/
theorem count_of_unanswered (hanswer : .ping true ∉ es) (hreset : .stmt .pingStop ∉ es) :
    es.foldl Event.count n = n + (pings es).length := by
  induction es generalizing n with
  | nil => rfl
  | cons e es ih =>
    rw [List.mem_cons, not_or] at hanswer hreset
    have hcount : Event.count n e = n + (pings [e]).length := by
      cases e with
      | ping answered =>
        cases answered with
        | true => exact absurd rfl hanswer.1
        | false => rfl
      | stmt pc =>
        cases pc with
        | pingStop => exact absurd rfl hreset.1
        | _ => rfl
      | _ => rfl
    have hpings : pings (e :: es) = pings [e] ++ pings es := pings_append [e] es
    rw [List.foldl_cons, ih hanswer.2 hreset.2, hcount, hpings, List.length_append, Nat.add_assoc]

/-- The pings that are counted are the last ones, and failed. -/
theorem failures_isSuffix (es : List Event) : List.replicate (failures es) false <:+ pings es := by
  induction es using List.reverseRecOn with
  | nil => exact List.suffix_refl _
  | append_singleton es e ih =>
    rw [failures, List.foldl_append, List.foldl_cons, List.foldl_nil, pings_append]
    cases e with
    | ping answered =>
      cases answered with
      | true => exact List.nil_suffix
      | false =>
        obtain ⟨earlier, h⟩ := ih
        refine ⟨earlier, ?_⟩
        rw [← h, Event.count, List.replicate_succ', ← List.append_assoc]
        rfl
    | stmt pc =>
      rw [show pings [.stmt pc] = [] from rfl, List.append_nil]
      cases pc with
      | pingStop => exact List.nil_suffix
      | _ => exact ih
    | reap | fork =>
      change _ <:+ pings es ++ []
      rw [List.append_nil]
      exact ih

/-! ### What the supervisor counts -/

/-- What a statement does to `error_num`. -/
theorem mainStep_errorNum (ok : Bool) (h : s.errorNum = failures es) :
    (s.mainStep ok).errorNum = failures (es ++ [eventOf s.pc ok]) := by
  obtain ⟨pc, status, timeout, linkNum, errorNum⟩ := s
  rw [failures, List.foldl_append]
  dsimp only at h
  cases pc with
  | ping =>
    cases ok with
    | true => rfl
    | false => exact congrArg (· + 1) h
  | pingStop => rfl
  | access | pppdExec => cases ok <;> exact h
  | timedOut =>
    dsimp only [Supervisor.mainStep]
    split <;> exact h
  | _ => exact h

/-- The reset is entered by the ping branch with `error_num > PING_COUNT` only. -/
theorem mainStep_pingStop {ok : Bool} (h : (s.mainStep ok).pc = .pingStop) :
    s.pc = .ping ∧ (s.mainStep ok).errorNum = s.errorNum + 1 ∧
      PING_COUNT < (s.mainStep ok).errorNum := by
  obtain ⟨pc, status, timeout, linkNum, errorNum⟩ := s
  cases pc with
  | ping =>
    dsimp only [Supervisor.mainStep] at h ⊢
    split at h
    · rename_i hlost
      rw [if_pos hlost]
      dsimp only at h
      split at h
      · rename_i hcount
        exact ⟨rfl, rfl, hcount⟩
      · cases h
    · cases h
  | top | testStart | pppdExec | testTimeout | access | pollStop | timedOut | openLink |
    testOnline =>
    dsimp only [Supervisor.mainStep] at h
    split at h <;> cases h
  | _ => cases h

/-- Any other statement leaves `error_num` at most `PING_COUNT`. -/
theorem mainStep_errorNum_le {ok : Bool} (h : s.pc ≠ .pingStop → s.errorNum ≤ PING_COUNT)
    (hpc : (s.mainStep ok).pc ≠ .pingStop) : (s.mainStep ok).errorNum ≤ PING_COUNT := by
  obtain ⟨pc, status, timeout, linkNum, errorNum⟩ := s
  cases pc with
  | ping =>
    dsimp only [Supervisor.mainStep] at hpc ⊢
    split at hpc
    · rename_i hlost
      rw [if_pos hlost]
      dsimp only at hpc ⊢
      split at hpc
      · exact absurd rfl hpc
      · rename_i hcount
        exact Int.not_lt.1 hcount
    · rename_i hanswer
      rw [if_neg hanswer]
      exact (by decide : (0 : Int) ≤ PING_COUNT)
  | pingStop => exact (by decide : (0 : Int) ≤ PING_COUNT)
  | access => cases ok <;> exact h nofun
  | timedOut =>
    dsimp only [Supervisor.mainStep]
    split <;> exact h nofun
  | _ => exact h nofun

/-! ### Connections -/

/-- The main thread is between a successful `pppd_start` and the end of the ping branch. -/
def Pc.connected : Pc → Bool
  | .setOnline | .ping | .pingStop => true
  | _ => false

/-- The ping branch is entered behind a successful `pppd_start` or with ONLINE set. -/
theorem mainStep_connected {ok : Bool} (h : (s.mainStep ok).pc.connected = true) :
    s.pc = .clearStart ∨ Online s ∨ s.pc.connected = true := by
  obtain ⟨pc, status, timeout, linkNum, errorNum⟩ := s
  cases pc with
  | clearStart => exact Or.inl rfl
  | testOnline =>
    dsimp only [Supervisor.mainStep] at h
    split at h
    · rename_i honline
      have hset : PPPD_STATUS_ONLINE.getLsbD 2 = true := by decide
      exact Or.inr (Or.inl (online_iff.2 (honline ▸ hset)))
    · cases h
  | setOnline | ping | pingStop => exact Or.inr (Or.inr rfl)
  | top | testStart | pppdExec | testTimeout | access | pollStop | timedOut | openLink =>
    dsimp only [Supervisor.mainStep] at h
    split at h <;> cases h
  | _ => cases h

/-- What `error_num` and the place in the loop say of the events so far. -/
structure Counts (es : List Event) (s : Supervisor) : Prop where
  errorNum : s.errorNum = failures es
  bound : s.pc ≠ .pingStop → s.errorNum ≤ PING_COUNT
  lost : s.pc = .pingStop → s.errorNum = PING_COUNT + 1
  started : Online s ∨ s.pc.connected = true → .stmt .clearStart ∈ es

theorem counts_init : Counts [] .init := by
  refine ⟨rfl, fun _ => by decide, fun h => absurd h (by decide), ?_⟩
  intro h
  rcases h with h | h
  · exact absurd rfl h
  · cases h

theorem Counts.reap (h : Counts es s) : Counts (es ++ [.reap]) s.reap := by
  refine ⟨?_, h.bound, h.lost, ?_⟩
  · rw [failures, List.foldl_append]
    exact h.errorNum
  · intro hstarted
    refine List.mem_append_left _ (h.started ?_)
    rcases hstarted with honline | hpc
    · rw [online_iff] at honline
      simp [Supervisor.reap] at honline
    · exact Or.inr hpc

theorem Counts.main (h : Counts es s) (ok : Bool) :
    Counts (es ++ [eventOf s.pc ok]) (s.mainStep ok) := by
  refine ⟨mainStep_errorNum ok h.errorNum, mainStep_errorNum_le h.bound, ?_, ?_⟩
  · intro hpc
    obtain ⟨hping, hcount, hlost⟩ := mainStep_pingStop hpc
    have hbound := h.bound (by rw [hping]; nofun)
    omega
  · intro hstarted
    have started : s.pc = .clearStart ∨ Online s ∨ s.pc.connected = true := by
      rcases hstarted with honline | hpc
      · rcases online_mainStep honline with hpc | ⟨hold, -, -⟩
        · exact Or.inr (Or.inr (by rw [hpc]; rfl))
        · exact Or.inr (Or.inl hold)
      · exact mainStep_connected hpc
    rw [List.mem_append]
    rcases started with hpc | hold
    · right
      rw [hpc]
      exact List.mem_singleton.2 rfl
    · exact Or.inl (h.started hold)

theorem run_counts (run : Run Step .init es s) : Counts es s := by
  apply run.invariant (P := Counts) counts_init
  intro es s e t h hstep
  cases hstep with
  | main ok => exact h.main ok
  | handler => exact h.reap

theorem eventOf_pingStop {pc : Pc} {ok : Bool} (h : eventOf pc ok = .stmt .pingStop) :
    pc = .pingStop := by
  cases pc with
  | pingStop => rfl
  | pppdExec => cases ok <;> cases h
  | _ => cases h

/-- At a reset six failed pings have been counted, and `pppd_start` has been successful. -/
theorem failures_of_reset (run : Run Step .init (past ++ .stmt .pingStop :: later) s) :
    failures past = 6 ∧ .stmt .clearStart ∈ past := by
  obtain ⟨t, u, hpast, hstep⟩ := run.step_of_history rfl
  have hcounts := run_counts hpast
  have hpc : t.pc = .pingStop := by
    generalize hev : Event.stmt .pingStop = e at hstep
    cases hstep with
    | main ok => exact eventOf_pingStop hev.symm
    | handler => cases hev
  refine ⟨?_, hcounts.started (Or.inr (by rw [hpc]; rfl))⟩
  have hlost := hcounts.errorNum.symm.trans (hcounts.lost hpc)
  rw [PING_COUNT] at hlost
  omega

/-! ### The exact condition -/

theorem failures_append (es es' : List Event) :
    failures (es ++ es') = es'.foldl Event.count (failures es) := List.foldl_append

/-- What lies behind the last successful `pppd_start` is the end of what lies behind any other. -/
theorem length_pings_le {past' later' : List Event}
    (h : past ++ .stmt .clearStart :: later = past' ++ .stmt .clearStart :: later')
    (hlast : .stmt .clearStart ∉ later') : (pings later').length ≤ (pings later).length := by
  rcases List.append_eq_append_iff.1 h with ⟨middle, -, hlater⟩ | ⟨middle, -, hlater⟩
  · cases middle with
    | nil => exact Nat.le_of_eq (by rw [(List.cons.inj hlater).2])
    | cons e middle =>
      have hsplit : later = (middle ++ [.stmt .clearStart]) ++ later' := by
        rw [(List.cons.inj hlater).2]
        simp
      rw [hsplit, pings_append, List.length_append]
      exact Nat.le_add_left _ _
  · cases middle with
    | nil => exact Nat.le_of_eq (by rw [(List.cons.inj hlater).2])
    | cons e middle =>
      refine absurd ?_ hlast
      rw [(List.cons.inj hlater).2]
      exact List.mem_append_right _ List.mem_cons_self

/-- The first reset of what follows. -/
theorem exists_first_reset (later rest : List Event) : ∃ first rest',
    later ++ .stmt .pingStop :: rest = first ++ .stmt .pingStop :: rest' ∧
      .stmt .pingStop ∉ first ∧ first ⊆ later := by
  by_cases hreset : .stmt .pingStop ∈ later
  · obtain ⟨first, middle, hlater, hfirst⟩ := List.eq_append_cons_of_mem hreset
    refine ⟨first, middle ++ .stmt .pingStop :: rest, ?_, hfirst, ?_⟩
    · rw [hlater, List.append_assoc, List.cons_append]
    · rw [hlater]
      exact List.subset_append_left _ _
  · exact ⟨later, rest, rfl, hreset, List.Subset.refl _⟩

theorem exists_last (h : e ∈ es) : ∃ past later, es = past ++ e :: later ∧ e ∉ later := by
  obtain ⟨later, past, hes, hlast⟩ := List.eq_append_cons_of_mem (List.mem_reverse.2 h)
  refine ⟨past.reverse, later.reverse, ?_, by rwa [List.mem_reverse]⟩
  rw [← List.reverse_reverse es, hes, List.reverse_append, List.reverse_cons, List.append_assoc,
    List.singleton_append]

/-! ### Schedules -/

/-- The handler reaps a child (`none`), or the main thread executes a statement. -/
def Supervisor.act (s : Supervisor) : Option Bool → Event × Supervisor
  | none => (.reap, s.reap)
  | some ok => (eventOf s.pc ok, s.mainStep ok)

/-- The events of a schedule, oldest first, and the state behind it. -/
def Supervisor.schedule (s : Supervisor) : List (Option Bool) → List Event × Supervisor
  | [] => ([], s)
  | a :: acts =>
    let (es, t) := (s.act a).2.schedule acts
    ((s.act a).1 :: es, t)

theorem run_schedule (run : Run Step .init es s) (acts : List (Option Bool)) :
    Run Step .init (es ++ (s.schedule acts).1) (s.schedule acts).2 := by
  induction acts generalizing es s with
  | nil =>
    rw [Supervisor.schedule, List.append_nil]
    exact run
  | cons a acts ih =>
    have hstep : Step s (s.act a).1 (s.act a).2 := by
      cases a with
      | none => exact .handler
      | some ok => exact .main ok
    have h := ih (run.snoc hstep)
    rw [List.append_assoc] at h
    exact h

/-- In every run, the ping branch resets only connections that have lost six pings in a row
exactly when failed pings of an earlier connection are never carried to a reset. -/
theorem ppp_run_resets_iff (run : Run Step .init es s) :
    ResetsForLostPings es ↔ AnswersBeforeReset es := by
  constructor
  · intro h past later rest hes hfailures
    by_contra hanswer
    -- The first reset behind the start is enough: up to it every ping counts.
    obtain ⟨first, rest', hlater, hreset, hsub⟩ := exists_first_reset later rest
    have hes' : es = (past ++ .stmt .clearStart :: first) ++ .stmt .pingStop :: rest' := by
      rw [hes, hlater, List.append_assoc, List.cons_append]
    have hsix : failures past + (pings first).length = 6 := by
      rw [hes'] at run
      obtain ⟨hcount, -⟩ := failures_of_reset run
      rw [failures_append] at hcount
      rw [← count_of_unanswered (fun hmem => hanswer (hsub hmem)) hreset]
      exact hcount
    obtain ⟨past', later', hsplit, hlast, hlost⟩ := h _ _ _ hes' rfl
    have hlength := hlost.length_le
    rw [List.length_replicate] at hlength
    have hle := length_pings_le hsplit hlast
    have hsix' : (PING_COUNT + 1).toNat = 6 := rfl
    omega
  · intro h past e rest hes he
    subst he
    have hreset := run
    rw [hes] at hreset
    obtain ⟨hcount, hstarted⟩ := failures_of_reset hreset
    -- The last successful start in front of the reset.
    obtain ⟨before, later, hpast, hlast⟩ := exists_last hstarted
    refine ⟨before, later, hpast, hlast, ?_⟩
    rw [hpast, failures_append, List.foldl_cons] at hcount
    have hlater : later.foldl Event.count 0 = 6 := by
      by_cases hcarried : failures before = 0
      · rw [hcarried] at hcount
        exact hcount
      · have hanswer := h before later rest (by rw [hes, hpast, List.append_assoc]; rfl) hcarried
        rw [count_of_answered hanswer] at hcount
        exact hcount
    rw [show (PING_COUNT + 1).toNat = failures later from hlater.symm]
    exact failures_isSuffix later

/-- A connection that loses six pings. -/
def loses : List (Option Bool) :=
  List.replicate 12 (some true) ++
    (List.replicate 5 [some false, some true, some true, some true, some true]).flatten ++
    [some false, some true]

/-- A connection that loses a ping and then its child, and one that loses five. -/
def losesLater : List (Option Bool) :=
  List.replicate 12 (some true) ++ [some false, some true, none] ++ List.replicate 14 (some true) ++
    (List.replicate 4 [some false, some true, some true, some true, some true]).flatten ++
    [some false]

theorem ppp_run_resets_iff_lost :
    .stmt .pingStop ∈ (Supervisor.init.schedule loses).1 ∧
      (ResetsForLostPings (Supervisor.init.schedule loses).1 ↔
        AnswersBeforeReset (Supervisor.init.schedule loses).1) :=
  ⟨by decide, ppp_run_resets_iff (run_schedule .nil loses)⟩

/-- The reset behind `losesLater` counts a ping of the first connection. -/
theorem ppp_reset_counts_earlier_connection :
    ¬ ∀ es s, Run Step .init es s → ResetsForLostPings es := by
  intro h
  have hpc : (Supervisor.init.schedule losesLater).2.pc = .pingStop := by decide
  have run := (run_schedule .nil losesLater).snoc (.main true)
  rw [hpc] at run
  obtain ⟨past, later, hpast, hlast, hlost⟩ := h _ _ run _ _ [] rfl rfl
  have hlength := hlost.length_le
  have hsplit : [] ++ (Supervisor.init.schedule losesLater).1 =
      (Supervisor.init.schedule losesLater).1.take 26 ++
        .stmt .clearStart :: (Supervisor.init.schedule losesLater).1.drop 27 := by decide
  have hle := length_pings_le (hsplit.symm.trans hpast) hlast
  have hfive : (pings ((Supervisor.init.schedule losesLater).1.drop 27)).length = 5 := by decide
  have hsix : (List.replicate (PING_COUNT + 1).toNat false).length = 6 := by decide
  omega

end PppCall
end CFunction
