import CFunction.Pthread.Rwlock
import Mathlib.Algebra.Order.BigOperators.Group.Finset
import Mathlib.Data.Fintype.BigOperators

/-!
# No increment is lost

The lock keeps the two steps of `love+=40` together. The test of a writer's loop is made without it,
and each writer may overshoot once.
-/

namespace CFunction
namespace Rwlock

variable {es : List Event} {s s' : State} {e : Event} {i j k : Fin THREADS} {v : Int}

/-- Between `pthread_rwlock_wrlock` and `pthread_rwlock_unlock`. -/
def WritePc.Inside : WritePc → Prop
  | .load | .store _ | .unlock => True
  | _ => False

/-- Between `pthread_rwlock_rdlock` and `pthread_rwlock_unlock`. -/
def ReadPc.Inside : ReadPc → Prop
  | .print | .unlock => True
  | _ => False

/-- The writer has found `love <= 520` and will add to it. -/
def WritePc.bound : WritePc → Int
  | .wrlock | .load | .store _ => 1
  | _ => 0

/-- What the step adds. -/
def WritePc.adds : WritePc → Int
  | .store _ => 40
  | _ => 0

theorem WritePc.bound_nonneg (pc : WritePc) : 0 ≤ pc.bound := by
  cases pc <;> simp [WritePc.bound]

theorem WritePc.bound_le_one (pc : WritePc) : pc.bound ≤ 1 := by
  cases pc <;> simp [WritePc.bound]

/-- The values that `pthread_write` has printed. -/
def writes (es : List Event) : List Int :=
  es.filterMap fun
    | .write _ love => some love
    | _ => none

theorem writes_concat_write (es : List Event) (i : Fin THREADS) (v : Int) :
    writes (es ++ [.write i v]) = writes es ++ [v] := by
  rw [writes, List.filterMap_append]
  rfl

theorem writes_concat_of_ne (h : ∀ i v, e ≠ .write i v) : writes (es ++ [e]) = writes es := by
  rw [writes, List.filterMap_append]
  cases e with
  | write i v => exact absurd rfl (h i v)
  | _ => exact List.append_nil _

/-- 40, 80, and so on. -/
def multiples (n : Nat) : List Int := (List.range n).map fun j : Nat => 40 * ((j : Int) + 1)

theorem multiples_succ (n : Nat) : multiples (n + 1) = multiples n ++ [(40 * (n + 1) : Int)] := by
  rw [multiples, List.range_succ, List.map_append]
  rfl

/-- How many writers will add. -/
def State.bound (s : State) : Int := ∑ i, (s.write i).bound

theorem write_setWrite (s : State) (i : Fin THREADS) (pc : WritePc) (j : Fin THREADS) :
    (s.setWrite i pc).write j = if j = i then pc else s.write j :=
  Function.update_apply ..

theorem read_setRead (s : State) (i : Fin THREADS) (pc : ReadPc) (j : Fin THREADS) :
    (s.setRead i pc).read j = if j = i then pc else s.read j :=
  Function.update_apply ..

theorem bound_setWrite (s : State) (i : Fin THREADS) (pc : WritePc) :
    (s.setWrite i pc).bound + (s.write i).bound = s.bound + pc.bound := by
  have hi := Finset.mem_univ i
  have hrest : ∑ j ∈ Finset.univ.erase i, ((s.setWrite i pc).write j).bound =
      ∑ j ∈ Finset.univ.erase i, (s.write j).bound :=
    Finset.sum_congr rfl fun j hj => by
      rw [write_setWrite, if_neg (Finset.ne_of_mem_erase hj)]
  have hnew := Finset.add_sum_erase _ (fun j => ((s.setWrite i pc).write j).bound) hi
  have hold := Finset.add_sum_erase _ (fun j => (s.write j).bound) hi
  simp only [write_setWrite, if_true] at hnew hold
  rw [State.bound, State.bound]
  simp only [write_setWrite] at hrest ⊢
  omega

theorem bound_le (s : State) : s.bound ≤ 5 := by
  have h := Finset.sum_le_card_nsmul Finset.univ (fun i => (s.write i).bound) 1
    fun i _ => WritePc.bound_le_one _
  exact h.trans (le_of_eq (by decide))

/-! ### The lock -/

/-- Who is inside holds the lock, and the value that a writer has read is still that of `love`. -/
structure Guarded (s : State) : Prop where
  writer : ∀ i, (s.write i).Inside → s.wrlocked = true ∧ (∀ k, s.rdlocked k = false) ∧
    ∀ j, (s.write j).Inside → j = i
  reader : ∀ k, (s.read k).Inside → s.rdlocked k = true
  loaded : ∀ i v, s.write i = .store v → v = s.love

theorem Guarded.init : Guarded .init where
  writer := fun _ h => h.elim
  reader := fun _ h => h.elim
  loaded := fun _ _ h => WritePc.noConfusion h

/-- While the lock is not held for writing, no writer is inside. -/
theorem Guarded.outside (h : Guarded s) (hfree : s.wrlocked = false) (j : Fin THREADS) :
    ¬ (s.write j).Inside := by
  intro hj
  rw [(h.writer j hj).1] at hfree
  cases hfree

/-- A writer stays outside. -/
theorem Guarded.setWrite (h : Guarded s) {pc : WritePc} (hpc : ¬ pc.Inside) :
    Guarded (s.setWrite i pc) := by
  have hkeep : ∀ j, ((s.setWrite i pc).write j).Inside → (s.write j).Inside := by
    intro j hj
    rw [write_setWrite] at hj
    split at hj
    · exact absurd hj hpc
    · exact hj
  refine ⟨fun j hj => ?_, h.reader, fun j v hj => ?_⟩
  · obtain ⟨hlock, hnone, hone⟩ := h.writer j (hkeep j hj)
    exact ⟨hlock, hnone, fun k hk => hone k (hkeep k hk)⟩
  · rw [write_setWrite] at hj
    split at hj
    · rw [hj] at hpc
      exact absurd trivial hpc
    · exact h.loaded j v hj

/-- The writer that is inside goes on. -/
theorem Guarded.goes_on (h : Guarded s) {pc : WritePc} (love : Int) (hi : (s.write i).Inside)
    (hloaded : ∀ v, pc = .store v → v = love) :
    Guarded { s.setWrite i pc with love := love } := by
  obtain ⟨hlock, hnone, hone⟩ := h.writer i hi
  have honly : ∀ j, ((s.setWrite i pc).write j).Inside → j = i := by
    intro j hj
    rw [write_setWrite] at hj
    split at hj
    · assumption
    · exact hone j hj
  refine ⟨fun j hj => ⟨hlock, hnone, fun k hk => (honly k hk).trans (honly j hj).symm⟩, h.reader,
    fun j v hj => ?_⟩
  have hj' : (s.setWrite i pc).write j = .store v := hj
  obtain rfl := honly j (by rw [hj']; trivial)
  rw [write_setWrite, if_pos rfl] at hj'
  exact hloaded v hj'

theorem Guarded.writeStep (h : Guarded s) (hstep : writeStep s i = some s') : Guarded s' := by
  unfold Rwlock.writeStep at hstep
  cases hpc : s.write i with
  | test =>
    simp only [hpc, Option.some.injEq] at hstep
    subst hstep
    refine h.setWrite ?_
    split <;> exact id
  | wrlock =>
    simp only [hpc] at hstep
    split at hstep
    · rename_i hfree
      obtain rfl := Option.some.inj hstep
      have honly : ∀ j, ((s.setWrite i .load).write j).Inside → j = i := by
        intro j hj
        rw [write_setWrite] at hj
        split at hj
        · assumption
        · exact absurd hj (h.outside hfree.1 j)
      refine ⟨fun j hj => ⟨rfl, hfree.2, fun k hk => (honly k hk).trans (honly j hj).symm⟩,
        h.reader,
        fun j v hj => ?_⟩
      have hj' : (s.setWrite i .load).write j = .store v := hj
      rw [write_setWrite] at hj'
      split at hj'
      · cases hj'
      · exact h.loaded j v hj'
    · cases hstep
  | load =>
    simp only [hpc, Option.some.injEq] at hstep
    subst hstep
    exact h.goes_on s.love (by rw [hpc]; trivial) fun v hv =>
      (WritePc.store.inj hv).symm
  | store loaded =>
    simp only [hpc, Option.some.injEq] at hstep
    subst hstep
    exact h.goes_on _ (by rw [hpc]; trivial) fun v hv => WritePc.noConfusion hv
  | unlock =>
    simp only [hpc, Option.some.injEq] at hstep
    subst hstep
    have hout : ∀ j, ¬ ((s.setWrite i .test).write j).Inside := by
      intro j hj
      rw [write_setWrite] at hj
      split at hj
      · exact hj
      · rename_i hne
        exact hne ((h.writer i (by rw [hpc]; trivial)).2.2 j hj)
    refine ⟨fun j hj => absurd hj (hout j), h.reader, fun j v hj => absurd ?_ (hout j)⟩
    have hj' : (s.setWrite i .test).write j = .store v := hj
    rw [hj']
    trivial
  | done =>
    simp only [hpc] at hstep
    cases hstep
  | cancelled =>
    simp only [hpc] at hstep
    cases hstep

/-- A reader's step with what it leaves of the lock. -/
theorem Guarded.setRead (h : Guarded s) {pc : ReadPc} (rdlocked : Fin THREADS → Bool)
    (hpc : pc.Inside → rdlocked i = true) (hothers : ∀ k, k ≠ i → rdlocked k = s.rdlocked k)
    (hwriter : s.wrlocked = true → ∀ k, s.rdlocked k = false → rdlocked k = false) :
    Guarded { s.setRead i pc with rdlocked := rdlocked } := by
  refine ⟨fun j hj => ?_, fun k hk => ?_, h.loaded⟩
  · obtain ⟨hlock, hnone, hone⟩ := h.writer j hj
    exact ⟨hlock, fun k => hwriter hlock k (hnone k), hone⟩
  · have hk' : ((s.setRead i pc).read k).Inside := hk
    rw [read_setRead] at hk'
    show rdlocked k = true
    split at hk'
    · rename_i heq
      rw [heq]
      exact hpc hk'
    · rename_i hne
      rw [hothers k hne]
      exact h.reader k hk'

theorem Guarded.readStep (h : Guarded s) (hstep : readStep s i = some s') : Guarded s' := by
  unfold Rwlock.readStep at hstep
  cases hpc : s.read i with
  | test =>
    simp only [hpc, Option.some.injEq] at hstep
    subst hstep
    refine h.setRead s.rdlocked (fun hin => ?_) (fun _ _ => rfl) fun _ _ h => h
    split at hin <;> exact hin.elim
  | rdlock =>
    simp only [hpc] at hstep
    split at hstep
    · rename_i hfree
      obtain rfl := Option.some.inj hstep
      refine h.setRead _ (fun _ => Function.update_self ..)
        (fun k hk => Function.update_of_ne hk ..)
        fun hlock => ?_
      rw [hfree] at hlock
      cases hlock
    · cases hstep
  | print =>
    simp only [hpc, Option.some.injEq] at hstep
    subst hstep
    exact h.setRead s.rdlocked (fun _ => h.reader i (by rw [hpc]; trivial))
      (fun _ _ => rfl) fun _ _ h => h
  | unlock =>
    simp only [hpc, Option.some.injEq] at hstep
    subst hstep
    refine h.setRead _ (fun hin => hin.elim) (fun k hk => Function.update_of_ne hk ..) fun _ k hk =>
      ?_
    by_cases hki : k = i
    · rw [hki, Function.update_self]
    · rw [Function.update_of_ne hki, hk]
  | done =>
    simp only [hpc] at hstep
    cases hstep
  | cancelled =>
    simp only [hpc] at hstep
    cases hstep

theorem Guarded.cancelRead (h : Guarded s) (hstep : cancelRead s i = some s') : Guarded s' := by
  unfold Rwlock.cancelRead at hstep
  split at hstep
  · obtain rfl := Option.some.inj hstep
    exact h.setRead s.rdlocked (fun hin => hin.elim) (fun _ _ => rfl) fun _ _ h => h
  · cases hstep

/-! ### The values -/

theorem readStep_love (hstep : readStep s i = some s') : s'.love = s.love ∧ s'.write = s.write := by
  unfold readStep at hstep
  split at hstep
  · obtain rfl := Option.some.inj hstep
    exact ⟨rfl, rfl⟩
  · split at hstep
    · obtain rfl := Option.some.inj hstep
      exact ⟨rfl, rfl⟩
    · cases hstep
  · obtain rfl := Option.some.inj hstep
    exact ⟨rfl, rfl⟩
  · obtain rfl := Option.some.inj hstep
    exact ⟨rfl, rfl⟩
  · cases hstep
  · cases hstep

/-- A writer that passes the test can be the fifth, and after that its 40 are accounted for. -/
theorem writeStep_bound (hstep : writeStep s i = some s') (hg : Guarded s)
    (hle : s.love + 40 * s.bound ≤ 720) :
    s'.love + 40 * s'.bound ≤ 720 ∧
      s'.love = s.love + (s.write i).adds := by
  unfold writeStep at hstep
  cases hpc : s.write i with
  | test =>
    simp only [hpc, Option.some.injEq] at hstep
    subst hstep
    have hnew := bound_setWrite s i (if s.love ≤ 520 then .wrlock else .done)
    rw [hpc] at hnew
    have hlove : (s.setWrite i (if s.love ≤ 520 then .wrlock else .done)).love = s.love := rfl
    refine ⟨?_, (Int.add_zero _).symm⟩
    have hfive := bound_le (s.setWrite i (if s.love ≤ 520 then .wrlock else .done))
    rw [hlove]
    by_cases hlow : s.love ≤ 520
    · omega
    · rw [if_neg hlow] at hnew ⊢
      simp only [WritePc.bound] at hnew
      omega
  | wrlock =>
    simp only [hpc] at hstep
    split at hstep
    · obtain rfl := Option.some.inj hstep
      have hnew := bound_setWrite s i .load
      rw [hpc] at hnew
      refine ⟨?_, (Int.add_zero _).symm⟩
      show s.love + 40 * (s.setWrite i .load).bound ≤ 720
      simp only [WritePc.bound] at hnew
      omega
    · cases hstep
  | load =>
    simp only [hpc, Option.some.injEq] at hstep
    subst hstep
    have hnew := bound_setWrite s i (.store s.love)
    rw [hpc] at hnew
    refine ⟨?_, (Int.add_zero _).symm⟩
    show s.love + 40 * (s.setWrite i (.store s.love)).bound ≤ 720
    simp only [WritePc.bound] at hnew
    omega
  | store loaded =>
    simp only [hpc, Option.some.injEq] at hstep
    subst hstep
    have hnew := bound_setWrite s i .unlock
    rw [hpc] at hnew
    have hloaded := hg.loaded i loaded hpc
    refine ⟨?_, congrArg (· + 40) hloaded⟩
    show loaded + 40 + 40 * (s.setWrite i .unlock).bound ≤ 720
    simp only [WritePc.bound] at hnew
    omega
  | unlock =>
    simp only [hpc, Option.some.injEq] at hstep
    subst hstep
    have hnew := bound_setWrite s i .test
    rw [hpc] at hnew
    refine ⟨?_, (Int.add_zero _).symm⟩
    show s.love + 40 * (s.setWrite i .test).bound ≤ 720
    simp only [WritePc.bound] at hnew
    omega
  | done =>
    simp only [hpc] at hstep
    cases hstep
  | cancelled =>
    simp only [hpc] at hstep
    cases hstep

/-- The value of `love` is what has been added, and the readers have printed it. -/
structure Holds (es : List Event) (s : State) : Prop where
  guarded : Guarded s
  order : writes es = multiples (writes es).length
  love : s.love = 40 * (writes es).length
  bounded : s.love + 40 * s.bound ≤ 720
  reads : Throughout (fun past e => ∀ k (v : Int), e = .read k v → v = 40 * (writes past).length) es

theorem Holds.init : Holds [] .init where
  guarded := .init
  order := rfl
  love := rfl
  bounded := by decide
  reads := throughout_nil

/-- A step that writes nothing. -/
theorem Holds.kept (h : Holds es s) (he : ∀ i v, e ≠ .write i v)
    (hread : ∀ k v, e = .read k v → v = s.love) (hg : Guarded s') (hlove : s'.love = s.love)
    (hbound : s'.bound ≤ s.bound ∨ s'.love + 40 * s'.bound ≤ 720) : Holds (es ++ [e]) s' := by
  have hwrites : writes (es ++ [e]) = writes es := writes_concat_of_ne he
  refine ⟨hg, ?_, ?_, ?_, ?_⟩
  · rw [hwrites]
    exact h.order
  · rw [hwrites, hlove]
    exact h.love
  · rcases hbound with hbound | hbound
    · have := h.bounded
      omega
    · exact hbound
  · exact (throughout_concat_iff es e).2 ⟨h.reads, fun k v hv => (hread k v hv).trans h.love⟩

theorem Holds.step (h : Holds es s) (hstep : Step s e s') : Holds (es ++ [e]) s' := by
  cases hstep with
  | @write _ i loaded hpc hw =>
    obtain ⟨hbound, hlove⟩ := writeStep_bound hw h.guarded h.bounded
    rw [hpc, WritePc.adds, h.love] at hlove
    have hwrites := writes_concat_write es i s'.love
    have hlength : (writes (es ++ [.write i s'.love])).length = (writes es).length + 1 := by
      rw [hwrites, List.length_append, List.length_singleton]
    refine ⟨h.guarded.writeStep hw, ?_, ?_, hbound, ?_⟩
    · rw [hlength, multiples_succ, ← h.order, hwrites, hlove]
      congr 2
    · rw [hlength, hlove]
      omega
    · exact (throughout_concat_iff es _).2 ⟨h.reads, fun k v hv => Event.noConfusion hv⟩
  | @writeSilent _ i hpc hw =>
    obtain ⟨hbound, hlove⟩ := writeStep_bound hw h.guarded h.bounded
    have hadds : (s.write i).adds = 0 := by
      cases hi : s.write i with
      | store v => exact absurd hi (hpc v)
      | _ => rfl
    rw [hadds, Int.add_zero] at hlove
    exact h.kept (fun _ _ => Event.noConfusion) (fun _ _ hv => Event.noConfusion hv)
      (h.guarded.writeStep hw) hlove (.inr hbound)
  | @read _ i hpc hr =>
    obtain ⟨hlove, hwrite⟩ := readStep_love hr
    refine h.kept (fun _ _ => Event.noConfusion) (fun k v hv => ?_) (h.guarded.readStep hr) hlove
      (.inl (by rw [State.bound, hwrite, State.bound]))
    exact (Event.read.inj hv).2.symm
  | readSilent hpc hr =>
    obtain ⟨hlove, hwrite⟩ := readStep_love hr
    exact h.kept (fun _ _ => Event.noConfusion) (fun _ _ hv => Event.noConfusion hv)
      (h.guarded.readStep hr) hlove (.inl (by rw [State.bound, hwrite, State.bound]))
  | @cancelWrite _ i hc =>
    unfold Rwlock.cancelWrite at hc
    split at hc
    · rename_i hgo
      obtain rfl := Option.some.inj hc
      have hnew := bound_setWrite s i .cancelled
      have hnonneg := (s.write i).bound_nonneg
      refine h.kept (fun _ _ => Event.noConfusion) (fun _ _ hv => Event.noConfusion hv)
        (h.guarded.setWrite id) rfl (.inl ?_)
      simp only [WritePc.bound] at hnew hnonneg
      omega
    · cases hc
  | cancelRead hc =>
    have hg := h.guarded.cancelRead hc
    unfold Rwlock.cancelRead at hc
    split at hc
    · obtain rfl := Option.some.inj hc
      exact h.kept (fun _ _ => Event.noConfusion) (fun _ _ hv => Event.noConfusion hv) hg rfl
        (.inl (Int.le_refl _))
    · cases hc

/-- In every interleaving the writers print 40, 80, and so on, each once, and the readers the last
of them; `love` passes 520 by at most 40 for each writer, and a writer that is inside is alone. -/
theorem writes_in_order (run : Run Step .init es s) :
    writes es = multiples (writes es).length ∧ s.love = 40 * (writes es).length ∧
      s.love ≤ 520 + 40 * THREADS ∧
      (∀ past k (v : Int) rest, es = past ++ .read k v :: rest → v = 40 * (writes past).length) ∧
      (∀ i, (s.write i).Inside → (∀ j, (s.write j).Inside → j = i) ∧ ∀ k, ¬ (s.read k).Inside) := by
  have h : Holds es s := run.invariant .init fun _ _ _ _ h hstep => h.step hstep
  refine ⟨h.order, h.love, ?_, fun past k v rest hes => h.reads past _ rest hes k v rfl,
    fun i hi => ?_⟩
  · have hnonneg : 0 ≤ s.bound := Finset.sum_nonneg fun i _ => (s.write i).bound_nonneg
    have hbounded := h.bounded
    have hthreads : (520 + 40 * THREADS : Int) = 720 := rfl
    omega
  · obtain ⟨-, hnone, hone⟩ := h.guarded.writer i hi
    refine ⟨hone, fun k hk => ?_⟩
    have := h.guarded.reader k hk
    rw [hnone k] at this
    cases this

/-- A writer, or a reader, makes a step. -/
def act (s : State) : Fin THREADS ⊕ Fin THREADS → Option (Event × State)
  | .inl i => (writeStep s i).map fun t =>
      (match s.write i with
        | .store _ => .write i t.love
        | _ => .silent, t)
  | .inr i => (readStep s i).map fun t => (if s.read i = .print then .read i s.love else .silent, t)

theorem step_of_act (s : State) (thread : Fin THREADS ⊕ Fin THREADS) (e : Event) (t : State)
    (h : act s thread = some (e, t)) : Step s e t := by
  cases thread with
  | inl i =>
    obtain ⟨u, hu, heq⟩ := Option.map_eq_some_iff.1 h
    obtain ⟨rfl, rfl⟩ := Prod.mk.inj heq
    cases hpc : s.write i with
    | store loaded => exact .write hpc hu
    | _ => exact .writeSilent (fun loaded hloaded => by rw [hpc] at hloaded; cases hloaded) hu
  | inr i =>
    obtain ⟨u, hu, heq⟩ := Option.map_eq_some_iff.1 h
    obtain ⟨rfl, rfl⟩ := Prod.mk.inj heq
    by_cases hpc : s.read i = .print
    · rw [if_pos hpc]
      exact .read hpc hu
    · rw [if_neg hpc]
      exact .readSilent hpc hu

/-- The values of `love` that all threads have printed. -/
def printed (es : List Event) : List Int :=
  es.filterMap fun
    | .write _ love => some love
    | .read _ love => some love
    | .silent => none

/-- Two writers and two readers. The second writer and the first reader have passed their tests
while the first writer is inside, and the readers are inside together. -/
theorem writes_in_order_two : ∃ es s, Run Step .init es s ∧ writes es = [40, 80] ∧
    s.love = 80 ∧ printed es = [40, 40, 40, 80] := by
  have hshown : (Run.replay act [] .init
      [.inl 0, .inl 1, .inr 2, .inl 0, .inl 0, .inl 0, .inl 0, .inr 2, .inr 4, .inr 4, .inr 2,
        .inr 4, .inr 4, .inr 2, .inl 1, .inl 1, .inl 1, .inl 1]).map
      (fun r => ((writes r.1).length, printed r.1)) = some (2, [40, 40, 40, 80]) := by decide
  obtain ⟨⟨es, s⟩, hreplay, heq⟩ := Option.map_eq_some_iff.1 hshown
  obtain ⟨hlength, hprinted⟩ := Prod.mk.inj heq
  have hrun := Run.of_replay step_of_act .nil hreplay
  obtain ⟨hwrites, hlove, -⟩ := writes_in_order hrun
  rw [hlength] at hwrites hlove
  exact ⟨es, s, hrun, hwrites, hlove, hprinted⟩

end Rwlock
end CFunction
