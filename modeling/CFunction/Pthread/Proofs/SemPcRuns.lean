import CFunction.Pthread.SemPc

/-!
# Runs of `sem_pc`

The values of the semaphores are determined by how far the two threads have come. From this
follow the exclusion, the order of the items, and that the threads never block each other.
-/

namespace CFunction
namespace SemPc

open BoundedBuffer

namespace ProducePc

/-- `produce` has taken a place from `nempty` which it has not handed on yet. -/
@[simp] def claimed : ProducePc → Nat
  | .waitMutex | .store | .postMutex | .postNstored => 1
  | _ => 0

/-- The item is in its slot, and `nstored` does not count it yet. -/
@[simp] def stored : ProducePc → Nat
  | .postMutex | .postNstored => 1
  | _ => 0

/-- Between `sem_wait(mutex)` and `sem_post(mutex)`. -/
@[simp] def inside : ProducePc → Nat
  | .store | .postMutex => 1
  | _ => 0

/-- What the loop of `produce` says of its counter. -/
def Counts (nitems : Int) (i : Nat) : ProducePc → Prop
  | .test => i ≤ nitems.toNat
  | .done => i = nitems.toNat
  | _ => i < nitems.toNat

end ProducePc

namespace ConsumePc

/-- `consume` has taken an item from `nstored` whose place it has not handed back yet. -/
@[simp] def taken : ConsumePc → Nat
  | .waitMutex | .check | .report | .postMutex | .postNempty => 1
  | _ => 0

/-- The item is checked, and `nempty` does not count its place yet. -/
@[simp] def checked : ConsumePc → Nat
  | .report | .postMutex | .postNempty => 1
  | _ => 0

/-- Between `sem_wait(mutex)` and `sem_post(mutex)`. -/
@[simp] def inside : ConsumePc → Nat
  | .check | .report | .postMutex => 1
  | _ => 0

/-- What the loop of `consume` says of its counter. -/
def Counts (nitems : Int) (i : Nat) : ConsumePc → Prop
  | .test => i ≤ nitems.toNat
  | .done => i = nitems.toNat
  | _ => i < nitems.toNat

end ConsumePc

/-- The items 0 to `n - 1`. -/
def items (n : Nat) : List Int := (List.range n).map Int.ofNat

theorem items_length (n : Nat) : (items n).length = n := by
  simp [items]

theorem items_succ (n : Nat) : items (n + 1) = items n ++ [(n : Int)] := by
  simp [items, List.range_succ]

theorem getElem?_items {n j : Nat} (h : j < n) : (items n)[j]? = some (j : Int) := by
  simp [items, h]

/-- The checks of the consumer: the counter and the value of its slot. -/
def checks (es : List Event) : List (Nat × Int) :=
  es.filterMap fun
    | .consume .check i value => some (i, value)
    | _ => none

/-- The checks of the items 0 to `n - 1`, each with its own value. -/
def goodChecks (n : Nat) : List (Nat × Int) := (List.range n).map fun i => (i, (i : Int))

theorem goodChecks_succ (n : Nat) : goodChecks (n + 1) = goodChecks n ++ [(n, (n : Int))] := by
  simp [goodChecks, List.range_succ]

/-- What holds in every state of a run. -/
structure Holds (nitems : Int) (es : List Event) (s : State) : Prop where
  nempty_eq : s.nempty + (s.produceI + s.produce.claimed) = NBUFF + s.consumeI
  nstored_eq : s.nstored + (s.consumeI + s.consume.taken) = s.produceI
  mutex_eq : s.mutex + s.produce.inside + s.consume.inside = 1
  window : Window s.buff (items (s.produceI + s.produce.stored)) (s.consumeI + s.consume.checked)
  checks_eq : checks es = goodChecks (s.consumeI + s.consume.checked)
  no_report : s.consume ≠ .report
  produce_counts : s.produce.Counts nitems s.produceI
  consume_counts : s.consume.Counts nitems s.consumeI

theorem holds_init (nitems : Int) (buff : Fin NBUFF → Int) : Holds nitems [] (.init buff) where
  nempty_eq := rfl
  nstored_eq := rfl
  mutex_eq := rfl
  window := window_nil buff 0
  checks_eq := rfl
  no_report := by simp [State.init]
  produce_counts := Nat.zero_le _
  consume_counts := Nat.zero_le _

variable {nitems : Int} {es : List Event} {s s' : State}

theorem checks_produce (es : List Event) (pc : ProducePc) :
    checks (es ++ [.produce pc]) = checks es := by
  simp [checks]

theorem lt_toNat_iff {i : Nat} : (i : Int) < nitems ↔ i < nitems.toNat := by omega

theorem Holds.produceStep (h : Holds nitems es s) (hstep : produceStep nitems s = some s') :
    Holds nitems (es ++ [.produce s.produce]) s' := by
  obtain ⟨hnempty, hnstored, hmutex, hwindow, hchecks, hreport, hproduce, hconsume⟩ := h
  obtain ⟨buff, mutex, nempty, nstored, produce, i, consume, j⟩ := s
  dsimp only at hnempty hnstored hmutex hwindow
  rw [← checks_produce es produce] at hchecks
  cases produce with
  | test =>
    obtain rfl := Option.some.inj hstep
    have hle : i ≤ nitems.toNat := hproduce
    by_cases hi : (i : Int) < nitems
    · simp only [hi, if_true]
      exact ⟨hnempty, hnstored, hmutex, hwindow, hchecks, hreport, lt_toNat_iff.1 hi, hconsume⟩
    · simp only [hi, if_false]
      have heq : i = nitems.toNat := by omega
      exact ⟨hnempty, hnstored, hmutex, hwindow, hchecks, hreport, heq, hconsume⟩
  | waitNempty =>
    obtain ⟨v, hwait, hs⟩ := bind_semWait_eq_some_iff.1 hstep
    obtain rfl := Option.some.inj hs
    dsimp only at hwait
    dsimp only [ProducePc.claimed] at hnempty
    have hclaim : v + (i + 1) = NBUFF + j := by omega
    exact ⟨hclaim, hnstored, hmutex, hwindow, hchecks, hreport, hproduce, hconsume⟩
  | waitMutex =>
    obtain ⟨v, hwait, hs⟩ := bind_semWait_eq_some_iff.1 hstep
    obtain rfl := Option.some.inj hs
    dsimp only at hwait
    dsimp only [ProducePc.inside] at hmutex
    have henter : v + 1 + consume.inside = 1 := by omega
    exact ⟨hnempty, hnstored, henter, hwindow, hchecks, hreport, hproduce, hconsume⟩
  | store =>
    obtain rfl := Option.some.inj hstep
    dsimp only [ProducePc.claimed] at hnempty
    have hroom : (items i).length < j + consume.checked + NBUFF := by
      rw [items_length]
      omega
    have hput := hwindow.put hroom (i : Int)
    dsimp only [ProducePc.stored, Nat.add_zero] at hput
    rw [items_length, ← items_succ] at hput
    exact ⟨hnempty, hnstored, hmutex, hput, hchecks, hreport, hproduce, hconsume⟩
  | postMutex =>
    obtain rfl := Option.some.inj hstep
    dsimp only [ProducePc.inside] at hmutex
    have hleave : mutex + 1 + 0 + consume.inside = 1 := by omega
    exact ⟨hnempty, hnstored, hleave, hwindow, hchecks, hreport, hproduce, hconsume⟩
  | postNstored =>
    obtain rfl := Option.some.inj hstep
    have hpost : nstored + 1 + (j + consume.taken) = i + 1 := by omega
    have hnext : i + 1 ≤ nitems.toNat := hproduce
    exact ⟨hnempty, hpost, hmutex, hwindow, hchecks, hreport, hnext, hconsume⟩
  | done => cases hstep

/-- The item that the consumer is about to check is in its slot. -/
theorem Holds.check_value (h : Holds nitems es s) (hpc : s.consume = .check) :
    s.buff (slot NBUFF s.consumeI) = s.consumeI := by
  have hnstored := h.nstored_eq
  have hwindow := h.window
  simp only [hpc, ConsumePc.taken] at hnstored
  simp only [hpc, ConsumePc.checked, Nat.add_zero] at hwindow
  exact hwindow s.consumeI _ (Nat.le_refl _) (getElem?_items (by omega))

theorem Holds.consumeStep (h : Holds nitems es s) (hstep : consumeStep nitems s = some s') :
    Holds nitems (es ++ [.consume s.consume s.consumeI (s.buff (slot NBUFF s.consumeI))]) s' := by
  have hvalue := h.check_value
  obtain ⟨hnempty, hnstored, hmutex, hwindow, hchecks, hreport, hproduce, hconsume⟩ := h
  obtain ⟨buff, mutex, nempty, nstored, produce, i, consume, j⟩ := s
  dsimp only at hnempty hnstored hmutex hwindow
  have hother : consume ≠ .check →
      checks (es ++ [.consume consume j (buff (slot NBUFF j))]) = checks es := by
    intro hne
    cases consume <;> simp_all [checks]
  cases consume with
  | test =>
    rw [← hother (by simp)] at hchecks
    obtain rfl := Option.some.inj hstep
    have hle : j ≤ nitems.toNat := hconsume
    by_cases hj : (j : Int) < nitems
    · simp only [hj, if_true]
      exact ⟨hnempty, hnstored, hmutex, hwindow, hchecks, by simp, hproduce, lt_toNat_iff.1 hj⟩
    · simp only [hj, if_false]
      have heq : j = nitems.toNat := by omega
      exact ⟨hnempty, hnstored, hmutex, hwindow, hchecks, by simp, hproduce, heq⟩
  | waitNstored =>
    rw [← hother (by simp)] at hchecks
    obtain ⟨v, hwait, hs⟩ := bind_semWait_eq_some_iff.1 hstep
    obtain rfl := Option.some.inj hs
    dsimp only at hwait
    dsimp only [ConsumePc.taken] at hnstored
    have htake : v + (j + 1) = i := by omega
    exact ⟨hnempty, htake, hmutex, hwindow, hchecks, by simp, hproduce, hconsume⟩
  | waitMutex =>
    rw [← hother (by simp)] at hchecks
    obtain ⟨v, hwait, hs⟩ := bind_semWait_eq_some_iff.1 hstep
    obtain rfl := Option.some.inj hs
    dsimp only at hwait
    dsimp only [ConsumePc.inside] at hmutex
    have henter : v + produce.inside + 1 = 1 := by omega
    exact ⟨hnempty, hnstored, henter, hwindow, hchecks, by simp, hproduce, hconsume⟩
  | check =>
    have hslot : buff (slot NBUFF j) = j := hvalue rfl
    obtain rfl := Option.some.inj hstep
    simp only [hslot, ne_eq, not_true_eq_false, if_false]
    have hold : checks es = goodChecks j := hchecks
    have hnext : checks (es ++ [.consume .check j (j : Int)]) = goodChecks (j + 1) := by
      rw [goodChecks_succ, ← hold]
      simp [checks]
    exact ⟨hnempty, hnstored, hmutex, hwindow.mono (Nat.le_succ j), hnext, by simp, hproduce,
      hconsume⟩
  | report => exact absurd rfl hreport
  | postMutex =>
    rw [← hother (by simp)] at hchecks
    obtain rfl := Option.some.inj hstep
    dsimp only [ConsumePc.inside] at hmutex
    have hleave : mutex + 1 + produce.inside + 0 = 1 := by omega
    exact ⟨hnempty, hnstored, hleave, hwindow, hchecks, by simp, hproduce, hconsume⟩
  | postNempty =>
    rw [← hother (by simp)] at hchecks
    obtain rfl := Option.some.inj hstep
    have hpost : nempty + 1 + (i + produce.claimed) = NBUFF + (j + 1) := by omega
    have hnext : j + 1 ≤ nitems.toNat := hconsume
    exact ⟨hpost, hnstored, hmutex, hwindow, hchecks, by simp, hproduce, hnext⟩
  | done => cases hstep

theorem run_holds {buff : Fin NBUFF → Int} (run : Run (Step nitems) (.init buff) es s) :
    Holds nitems es s := by
  induction run with
  | nil => exact holds_init nitems buff
  | snoc _ hstep ih =>
    cases hstep with
    | produce h => exact ih.produceStep h
    | consume h => exact ih.consumeStep h

/-- A producer without a step has returned, or it waits at a semaphore with the value 0. -/
theorem produceStep_eq_none (h : produceStep nitems s = none) :
    s.produce = .done ∨ (s.produce = .waitNempty ∧ s.nempty = 0) ∨
      (s.produce = .waitMutex ∧ s.mutex = 0) := by
  cases hpc : s.produce with
  | done => exact Or.inl rfl
  | waitNempty =>
    simp only [produceStep, hpc] at h
    exact Or.inr (Or.inl ⟨rfl, bind_semWait_eq_none_iff.1 h⟩)
  | waitMutex =>
    simp only [produceStep, hpc] at h
    exact Or.inr (Or.inr ⟨rfl, bind_semWait_eq_none_iff.1 h⟩)
  | _ => simp [produceStep, hpc] at h

theorem consumeStep_eq_none (h : consumeStep nitems s = none) :
    s.consume = .done ∨ (s.consume = .waitNstored ∧ s.nstored = 0) ∨
      (s.consume = .waitMutex ∧ s.mutex = 0) := by
  cases hpc : s.consume with
  | done => exact Or.inl rfl
  | waitNstored =>
    simp only [consumeStep, hpc] at h
    exact Or.inr (Or.inl ⟨rfl, bind_semWait_eq_none_iff.1 h⟩)
  | waitMutex =>
    simp only [consumeStep, hpc] at h
    exact Or.inr (Or.inr ⟨rfl, bind_semWait_eq_none_iff.1 h⟩)
  | _ => simp [consumeStep, hpc] at h

/-- When neither thread has a step, both have returned. -/
theorem Holds.done_of_stuck (h : Holds nitems es s) (hp : SemPc.produceStep nitems s = none)
    (hc : SemPc.consumeStep nitems s = none) : s.produce = .done ∧ s.consume = .done := by
  have hnempty := h.nempty_eq
  have hnstored := h.nstored_eq
  have hmutex := h.mutex_eq
  have hproduce := h.produce_counts
  have hconsume := h.consume_counts
  have hten : NBUFF = 10 := rfl
  rcases produceStep_eq_none hp with hp | ⟨hp, hzero⟩ | ⟨hp, hzero⟩ <;>
    rcases consumeStep_eq_none hc with hc | ⟨hc, hzero'⟩ | ⟨hc, hzero'⟩ <;>
      simp only [hp, hc, ProducePc.claimed, ProducePc.inside, ProducePc.Counts, ConsumePc.taken,
        ConsumePc.inside, ConsumePc.Counts] at hnempty hnstored hmutex hproduce hconsume
  · exact ⟨hp, hc⟩
  all_goals
    -- the one waits for the other, which is neither done nor inside
    omega

/-- What the two threads and their semaphores guarantee after the steps `es`. -/
structure HandsOver (nitems : Int) (es : List Event) (s : State) : Prop where
  /-- So far the consumer has seen the items 0, 1, 2 and so on, each once. -/
  in_order : ∃ n ≤ nitems.toNat, checks es = goodChecks n
  all_seen : s.consume = .done → checks es = goodChecks nitems.toNat
  excludes : ¬ (s.produce.inside = 1 ∧ s.consume.inside = 1)
  /-- An item whose slot the producer is about to write has been consumed. -/
  keeps : s.produce = .store → ∀ j < s.produceI, slot NBUFF j = slot NBUFF s.produceI →
    (j, (j : Int)) ∈ checks es
  nempty_le : s.nempty ≤ 10
  nstored_le : s.nstored ≤ 10
  mutex_le : s.mutex ≤ 1
  goes_on : s.produce ≠ .done ∨ s.consume ≠ .done → ∃ e s', Step nitems s e s'

theorem Holds.handsOver (h : Holds nitems es s) : HandsOver nitems es s := by
  have hnempty := h.nempty_eq
  have hnstored := h.nstored_eq
  have hmutex := h.mutex_eq
  have hconsume := h.consume_counts
  have hten : NBUFF = 10 := rfl
  refine ⟨⟨_, ?_, h.checks_eq⟩, ?_, by omega, ?_, by omega, by omega, by omega, ?_⟩
  · cases hpc : s.consume <;> rw [hpc] at hconsume <;>
      simp only [ConsumePc.Counts, ConsumePc.checked] at hconsume ⊢ <;> omega
  · intro hdone
    have hchecks := h.checks_eq
    simp only [hdone, ConsumePc.Counts] at hconsume
    rwa [hdone, hconsume] at hchecks
  · intro hpc j hj hslot
    have hfar : j + NBUFF ≤ s.produceI := by
      by_contra hnear
      exact slot_ne hj (by omega) hslot
    simp only [hpc, ProducePc.claimed] at hnempty
    have hlt : j < s.consumeI + s.consume.checked := by omega
    rw [h.checks_eq]
    exact List.mem_map.2 ⟨j, List.mem_range.2 hlt, rfl⟩
  · intro hbusy
    cases hp : SemPc.produceStep nitems s with
    | some s' => exact ⟨_, s', .produce hp⟩
    | none =>
      cases hc : SemPc.consumeStep nitems s with
      | some s' => exact ⟨_, s', .consume hc⟩
      | none =>
        obtain ⟨hdone, hdone'⟩ := h.done_of_stuck hp hc
        rcases hbusy with hbusy | hbusy
        · exact absurd hdone hbusy
        · exact absurd hdone' hbusy

/-- In every interleaving the semaphores hand the items over one by one. -/
theorem sem_pc_hands_over {buff : Fin NBUFF → Int} (run : Run (Step nitems) (.init buff) es s) :
    HandsOver nitems es s :=
  (run_holds run).handsOver

theorem step_of_act (s : State) (producer : Bool) (e : Event) (t : State)
    (h : act nitems s producer = some (e, t)) : Step nitems s e t := by
  cases producer with
  | true =>
    obtain ⟨u, hu, heq⟩ := Option.map_eq_some_iff.1 h
    obtain ⟨rfl, rfl⟩ := Prod.mk.inj heq
    exact .produce hu
  | false =>
    obtain ⟨u, hu, heq⟩ := Option.map_eq_some_iff.1 h
    obtain ⟨rfl, rfl⟩ := Prod.mk.inj heq
    exact .consume hu

/-- The producer is one item ahead. The consumer waits for the mutex while the second item is
stored. -/
def sampleSchedule : List Bool :=
  List.replicate 7 true ++ [true, false, true, false] ++ [true, true, false, true, false, true] ++
    List.replicate 9 false

/-- Two items, until both threads have returned. -/
theorem sem_pc_hands_over_two : ∃ es s, Run (Step 2) (.init fun _ => 7) es s ∧
    HandsOver 2 es s ∧ checks es = [(0, 0), (1, 1)] ∧ s.produce = .done ∧ s.consume = .done := by
  have hshown : (Run.replay (act 2) [] (.init fun _ => 7) sampleSchedule).map
      (fun r => (checks r.1, r.2.produce, r.2.consume)) =
        some ([(0, 0), (1, 1)], .done, .done) := by decide
  obtain ⟨⟨es, s⟩, hreplay, heq⟩ := Option.map_eq_some_iff.1 hshown
  obtain ⟨hchecks, hends⟩ := Prod.mk.inj heq
  obtain ⟨hproduce, hconsume⟩ := Prod.mk.inj hends
  have hrun := Run.of_replay step_of_act .nil hreplay
  exact ⟨es, s, hrun, sem_pc_hands_over hrun, hchecks, hproduce, hconsume⟩

end SemPc
end CFunction
