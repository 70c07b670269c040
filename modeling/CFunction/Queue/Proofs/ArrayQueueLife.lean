import CFunction.Queue.Proofs.ArrayQueueDestroy

/-!
# Runs with a teardown

Until `squeue_destroy` has run the queue is `Alive`, afterwards it is `Gone`, whatever other
calls the threads make, unless one of them is an enqueue: that goes through the `NULL` `qdata`.
-/

namespace CFunction.ArrayQueue

variable {size : Nat} {q : Squeue} {xs : List SqueueData} {es : List LifeEvent}

/-! ## What the history says -/

theorem callEvents_concat (es : List LifeEvent) (e : LifeEvent) :
    callEvents (es ++ [e]) = callEvents es ++ callEvents [e] := List.filterMap_append

theorem removed_concat (es : List LifeEvent) (e : LifeEvent) :
    removed (es ++ [e]) = removed es ++ removed [e] := List.flatMap_append

theorem enqueued_append (es es' : List Event) :
    enqueued (es ++ es') = enqueued es ++ enqueued es' := List.filterMap_append

theorem destroyed_concat_call (e : Event) : Destroyed (es ++ [.call e]) ↔ Destroyed es := by
  simp [Destroyed]

theorem destroyed_concat_destroy (t : Nat) (items : List SqueueData) :
    Destroyed (es ++ [.destroy t items]) := ⟨t, items, by simp⟩

/-! ## The invariant -/

/-- The items that a history has left in the queue. -/
def Left (es : List LifeEvent) (xs : List SqueueData) : Prop :=
  removed es ++ xs = enqueued (callEvents es)

/-- What holds after the history `es`: the queue is alive until it is destroyed, and only an
enqueue on a destroyed queue with at least one slot has ended the program. -/
def LifeInv (size : Nat) (es : List LifeEvent) : Option System → Prop
  | some s => ∃ xs, Left es xs ∧ ((¬ Destroyed es ∧ Alive size s.queue xs) ∨
      (Destroyed es ∧ xs = [] ∧ Gone size s.queue))
  | none => ∃ past t data, es = past ++ [.fault t (.enqueue data)] ∧ Destroyed past ∧ 0 < size

theorem left_call {e : Event} {ys : List SqueueData} (left : Left es xs)
    (moved : dequeued [e] ++ ys = xs ++ enqueued [e]) : Left (es ++ [.call e]) ys := by
  have hlast : callEvents [.call e] = [e] := rfl
  have hremoved : removed [.call e] = dequeued [e] := by simp [removed]
  rw [Left, removed_concat, callEvents_concat, enqueued_append, ← left, List.append_assoc,
    List.append_assoc, hlast, hremoved, moved]

theorem left_destroy (t : Nat) (left : Left es xs) : Left (es ++ [.destroy t xs]) [] := by
  have hlast : callEvents [.destroy t xs] = [] := rfl
  have hremoved : removed [.destroy t xs] = xs := by simp [removed]
  rw [Left, removed_concat, callEvents_concat, hlast, hremoved, List.append_nil,
    List.append_nil, ← left]

/-- A queue without slots never changes, so its indices stay equal. -/
theorem Alive.exec_head_tail {q' : Squeue} {cs : CriticalSection} {r : Result}
    (hq : Alive size q xs) (int : size ≤ 2147483647) (done : cs.exec q = some (q', r))
    (h0 : size = 0) : q'.head = q'.tail := by
  have hfits := hq.holds.fits
  have hsize := hq.holds.size_eq
  have hcount := hq.holds.count_eq
  have hsame : q' = q := by
    obtain ⟨q₁, r₁, -, -, hexec, hrep, -⟩ := exec_spec hq.holds int cs
    obtain ⟨rfl, rfl⟩ := Prod.mk.inj (Option.some.inj (done.symm.trans hexec))
    cases cs with
    | enqueue data => rw [Replies, if_neg (by omega)] at hrep; exact hrep.2
    | dequeue => rw [Replies, if_neg (by omega)] at hrep; exact hrep.2
    | isFull => exact hrep.2
    | isEmpty => exact hrep.2
  rw [hsame]
  exact hq.no_slots h0

theorem Alive.step_no_slots {s s' : System} {e : Event} (hq : Alive size s.queue xs)
    (int : size ≤ 2147483647) (hstep : Step s e s') (h0 : size = 0) :
    s'.queue.head = s'.queue.tail := by
  cases hstep with
  | enter _ _ => exact hq.no_slots h0
  | reject _ _ => exact hq.no_slots h0
  | locked _ done => exact hq.exec_head_tail int done h0

/-- A call of some thread on a queue that has its slots. -/
theorem Alive.step {s s' : System} {e : Event} (hq : Alive size s.queue xs)
    (int : size ≤ 2147483647) (hstep : Step s e s') :
    ∃ ys, Alive size s'.queue ys ∧ dequeued [e] ++ ys = xs ++ enqueued [e] := by
  have hsim := step_simulates int s e s' xs hq.holds hstep
  have htaken := taken_op [e]
  have haccepted := accepted_op [e]
  have hempty := hq.step_no_slots int hstep
  cases hop : e.op with
  | none =>
    simp only [hop] at hsim
    simp only [List.filterMap_cons, List.filterMap_nil, hop] at htaken haccepted
    refine ⟨xs, ⟨hsim, hempty⟩, ?_⟩
    rw [← htaken, ← haccepted]
    exact (List.append_nil xs).symm
  | some op =>
    simp only [hop] at hsim
    simp only [List.filterMap_cons, List.filterMap_nil, hop] at htaken haccepted
    obtain ⟨ys, hfifo, hys⟩ := hsim
    refine ⟨ys, ⟨hys, hempty⟩, ?_⟩
    rw [← htaken, ← haccepted]
    exact Fifo.step_moves hfifo

/-! ## After the teardown -/

/-- An answer that refuses an item: a non-zero code. The two tests answer as always. -/
def Result.Refused : Result → Prop
  | .code ret => ret ≠ 0
  | .taken ret _ => ret ≠ 0
  | .answer _ => True

/-- Without slots nothing changes, except that an enqueue accesses a slot if `size` is not
zero. -/
theorem Gone.exec (hq : Gone size q) (cs : CriticalSection) :
    (∃ r, cs.exec q = some (q, r) ∧ r.Refused ∧ (0 < size → ∀ data, cs ≠ .enqueue data)) ∨
      (cs.exec q = none ∧ 0 < size ∧ ∃ data, cs = .enqueue data) := by
  have hcount := hq.count_eq
  have hsize := hq.size_eq
  cases cs with
  | enqueue data =>
    rcases Nat.eq_zero_or_pos size with h0 | hpos
    · refine .inl ⟨.code (-1), ?_, by simp [Result.Refused], fun h => absurd h (by omega)⟩
      have hlt : ¬ q.count < q.size := by omega
      simp [CriticalSection.exec, squeueEnqueue, enqueueLocked, hlt]
    · refine .inr ⟨?_, hpos, data, rfl⟩
      have hlt : q.count < q.size := by omega
      simp [CriticalSection.exec, squeueEnqueue, enqueueLocked, hlt, Squeue.store, hq.qdata_eq]
  | dequeue =>
    refine .inl ⟨.taken (-1) none, ?_, by simp [Result.Refused], by simp⟩
    have hlt : ¬ q.count > 0 := by omega
    simp [CriticalSection.exec, squeueDequeue, dequeueLocked, hlt]
  | isFull => exact .inl ⟨_, rfl, trivial, by simp⟩
  | isEmpty => exact .inl ⟨_, rfl, trivial, by simp⟩

theorem Result.Refused.dequeued_eq {cs : CriticalSection} {r : Result} (t : Nat)
    (refused : r.Refused) : dequeued [.locked t cs r] = [] := by
  cases cs with
  | dequeue =>
    cases r with
    | taken ret out =>
      have hret : ret ≠ 0 := refused
      simp [dequeued, hret]
    | code ret => rfl
    | answer b => rfl
  | enqueue data => rfl
  | isFull => rfl
  | isEmpty => rfl

theorem Result.Refused.enqueued_eq {cs : CriticalSection} {r : Result} (t : Nat)
    (refused : r.Refused) : enqueued [.locked t cs r] = [] := by
  cases cs with
  | enqueue data =>
    cases r with
    | code ret =>
      have hret : ret ≠ 0 := refused
      simp [enqueued, hret]
    | taken ret out => rfl
    | answer b => rfl
  | dequeue => rfl
  | isFull => rfl
  | isEmpty => rfl

/-- A call of some thread that the destroyed queue survives. -/
theorem Gone.step {s s' : System} {e : Event} (hq : Gone size s.queue) (hstep : Step s e s') :
    Gone size s'.queue ∧ dequeued [e] = [] ∧ enqueued [e] = [] := by
  cases hstep with
  | enter _ _ => exact ⟨hq, rfl, rfl⟩
  | reject _ _ => exact ⟨hq, rfl, rfl⟩
  | @locked t cs q' r _ done =>
    rcases hq.exec cs with ⟨r', hexec, refused, -⟩ | ⟨hexec, -⟩
    · obtain ⟨rfl, rfl⟩ := Prod.mk.inj (Option.some.inj (done.symm.trans hexec))
      exact ⟨hq, refused.dequeued_eq t, refused.enqueued_eq t⟩
    · exact absurd (done.symm.trans hexec) (by simp)

theorem lifeStep_inv {o o' : Option System} {e : LifeEvent} (int : size ≤ 2147483647)
    (inv : LifeInv size es o) (hstep : LifeStep o e o') : LifeInv size (es ++ [e]) o' := by
  cases hstep with
  | @call s s' e hstep =>
    rcases inv with ⟨xs, left, ⟨alive, hq⟩ | ⟨gone, rfl, hq⟩⟩
    · obtain ⟨ys, hys, moved⟩ := hq.step int hstep
      exact ⟨ys, left_call left moved, .inl ⟨fun h => alive ((destroyed_concat_call e).1 h), hys⟩⟩
    · obtain ⟨hq', htaken, haccepted⟩ := hq.step hstep
      refine ⟨[], left_call left ?_, .inr ⟨(destroyed_concat_call e).2 gone, rfl, hq'⟩⟩
      rw [htaken, haccepted]
  | @destroy s t destroy fuel data td _ done =>
    refine ⟨[], ?_, .inr ⟨destroyed_concat_destroy t td.dequeued, rfl, ?_⟩⟩
    all_goals rcases inv with ⟨xs, left, ⟨-, hq⟩ | ⟨-, rfl, hq⟩⟩
    · rw [(hq.teardown_result int done).1]
      exact left_destroy t left
    · rw [(hq.teardown_result done).1]
      exact left_destroy t left
    · exact (hq.teardown_result int done).2
    · exact (hq.teardown_result done).2
  | @fault s t cs _ stuck =>
    rcases inv with ⟨xs, left, ⟨alive, hq⟩ | ⟨gone, rfl, hq⟩⟩
    · obtain ⟨q', r, -, -, hexec, -⟩ := exec_spec hq.holds int cs
      exact absurd (stuck.symm.trans hexec) (by simp)
    · rcases hq.exec cs with ⟨r, hexec, -⟩ | ⟨-, hpos, data, rfl⟩
      · exact absurd (stuck.symm.trans hexec) (by simp)
      · exact ⟨es, t, data, rfl, gone, hpos⟩
  | @destroyFault s t _ stuck =>
    rcases inv with ⟨xs, -, ⟨-, hq⟩ | ⟨-, rfl, hq⟩⟩
    · obtain ⟨td, hrun, -⟩ := @Alive.teardown _ _ _ _ none hq int _ _ .zero (foldlM_none xs ())
      have hsome := (stuck (xs.length + 1) .zero).symm.trans (hrun (xs.length + 1))
      rw [if_pos (Nat.lt_succ_self _)] at hsome
      exact absurd hsome (by simp)
    · obtain ⟨td, hrun, -⟩ := @Gone.teardown _ _ _ none hq () .zero
      exact absurd ((stuck 1 .zero).symm.trans (hrun 1)) (by simp)

theorem run_inv {q₀ q : Squeue} {size : Int} {ok : Bool} (int : InInt size)
    (init : squeueInit q₀ size ok = (q, 0)) {heap : Payloads} {es : List LifeEvent}
    {o : Option System} (run : Run LifeStep (some (System.start q heap)) es o) :
    LifeInv size.toNat es o := by
  have hint : size.toNat ≤ 2147483647 := by have := int.2; omega
  have start : LifeInv size.toNat [] (some (System.start q heap)) :=
    ⟨[], rfl, .inl ⟨by simp [Destroyed], alive_init init⟩⟩
  exact run.invariant start fun es s e t inv hstep => lifeStep_inv hint inv hstep

/-! ## The teardown of a reachable queue -/

/-- `squeue_destroy` on `q`, which stores `xs`, drains it whatever the callback does, and with
`squeue_data_destroy` frees every payload once: here no payload is stored twice. -/
structure Drains (q : Squeue) (xs : List SqueueData) : Prop where
  contents : Contents q xs
  drains : ∀ {σ : Type} (destroy : Callback σ) (env env' : σ) (data : SqueueData),
    xs.foldlM (visit destroy) env = some env' →
      ∃ t, (∀ fuel, squeueDestroy destroy fuel q env data =
          if xs.length < fuel then some t else none) ∧
        Drained destroy q xs t ∧ t.env = env'
  releases : ∀ (heap : Payloads) (data : SqueueData), (∀ p ∈ payloads xs, heap.Live p) →
    (payloads xs).Nodup →
      ∃ t, (∀ fuel, squeueDestroy (some squeueDataDestroy) fuel q heap data =
          if xs.length < fuel then some t else none) ∧
        Drained (some squeueDataDestroy) q xs t ∧
        ∀ p, t.env.block p = if p ∈ payloads xs then none else heap.block p

theorem drains_of {q : Squeue} {xs : List SqueueData} (contents : Contents q xs)
    (drains : ∀ {σ : Type} (destroy : Callback σ) (env env' : σ) (data : SqueueData),
      xs.foldlM (visit destroy) env = some env' →
        ∃ t, (∀ fuel, squeueDestroy destroy fuel q env data =
            if xs.length < fuel then some t else none) ∧
          Drained destroy q xs t ∧ t.env = env') : Drains q xs := by
  refine ⟨contents, drains, ?_⟩
  intro heap data live nodup
  obtain ⟨heap', hfold, hblock⟩ := foldlM_squeueDataDestroy xs heap live nodup
  obtain ⟨t, hrun, drained, rfl⟩ := drains (some squeueDataDestroy) heap heap' data hfold
  exact ⟨t, hrun, drained, hblock⟩

/-- After any run of any number of threads, teardowns included, `squeue_destroy` takes out what
is stored, which is what was enqueued less what has left. -/
theorem squeueDestroy_drains {q₀ q : Squeue} {size : Int} {ok : Bool} (int : InInt size)
    (init : squeueInit q₀ size ok = (q, 0)) {heap : Payloads} {es : List LifeEvent} {s : System}
    (run : Run LifeStep (some (System.start q heap)) es (some s)) :
    ∃ xs, removed es ++ xs = enqueued (callEvents es) ∧ Drains s.queue xs := by
  have hint : size.toNat ≤ 2147483647 := by have := int.2; omega
  rcases run_inv int init run with ⟨xs, left, ⟨-, hq⟩ | ⟨-, rfl, hq⟩⟩
  · refine ⟨xs, left, drains_of hq.contents fun destroy env env' data returns => ?_⟩
    obtain ⟨t, hrun, drained, henv, -⟩ := hq.teardown hint data returns
    exact ⟨t, hrun, drained, henv⟩
  · refine ⟨[], left, drains_of hq.contents fun destroy env env' data returns => ?_⟩
    obtain ⟨t, hrun, drained, henv, -⟩ := @Gone.teardown _ _ _ destroy hq env data
    exact ⟨t, hrun, drained, henv.trans (Option.some.inj returns)⟩

/-- Two slots, used with a wrap: two items are left when the queue is torn down. -/
theorem squeueDestroy_drains_wrapped : ∃ (es : List LifeEvent) (s : System) (xs : List SqueueData),
    s.queue.head = 1 ∧ enqueued (callEvents es) = [⟨7, 1⟩, ⟨8, 1⟩, ⟨9, 1⟩] ∧
      removed es ++ xs = enqueued (callEvents es) ∧ Drains s.queue xs := by
  let q₀ : Squeue := ⟨5, 5, 5, 5, none⟩
  let q : Squeue := ⟨0, 0, 0, 2, some [⟨0, 0⟩, ⟨0, 0⟩]⟩
  have init : squeueInit q₀ 2 true = (q, 0) := by decide
  have start : Run LifeStep (some (System.start q .empty)) [] (some (System.start q .empty)) := .nil
  have run := ((((((((start.snoc
    (.call (.enter (t := 1) (c := .enqueue ⟨7, 1⟩) (m := none) rfl rfl))).snoc
    (.call (.locked (t := 1) rfl rfl))).snoc
    (.call (.enter (t := 1) (c := .enqueue ⟨8, 1⟩) (m := none) rfl rfl))).snoc
    (.call (.locked (t := 1) rfl rfl))).snoc
    (.call (.enter (t := 1) (c := .dequeue) (m := none) rfl rfl))).snoc
    (.call (.locked (t := 1) rfl rfl))).snoc
    (.call (.enter (t := 1) (c := .enqueue ⟨9, 1⟩) (m := none) rfl rfl))).snoc
    (.call (.locked (t := 1) rfl rfl)))
  obtain ⟨xs, left, hxs⟩ := squeueDestroy_drains (by decide) init run
  exact ⟨_, _, xs, rfl, rfl, left, hxs⟩

/-! ## Calls around the teardown -/

/-- The critical section of `squeue_enqueue` or `squeue_enqueue_ext` is executed. -/
def LifeEvent.Enqueues : LifeEvent → Prop
  | .call (.locked _ (.enqueue _) _) => True
  | .fault _ (.enqueue _) => True
  | _ => False

/-- A slot is accessed that is not there. -/
def LifeEvent.Faults : LifeEvent → Prop
  | .fault _ _ => True
  | .destroyFault _ => True
  | _ => False

/-- A call that returns a code returns a non-zero one. -/
def LifeEvent.Refused : LifeEvent → Prop
  | .call (.reject _ _ _ ret) => ret ≠ 0
  | .call (.locked _ _ r) => r.Refused
  | _ => True

/-- An event that goes through no `NULL`, and after a teardown refuses. -/
structure SafeAt (past : List LifeEvent) (e : LifeEvent) : Prop where
  slots : ¬ e.Faults
  refused : Destroyed past → e.Refused

/-- The only early return is that of a failed `malloc`. -/
theorem Call.enter_inr {heap heap' : Payloads} {m : Option Ptr} {ret : Int} {c : Call}
    (rejected : c.enter heap m = some (heap', .inr ret)) : ret = -10 := by
  cases c with
  | enqueueExt src length =>
    cases m with
    | none => simp [Call.enter, enqueueExtCopy] at rejected; omega
    | some p =>
      simp only [Call.enter, enqueueExtCopy, Option.bind_eq_bind, Option.bind_eq_some_iff]
        at rejected
      obtain ⟨⟨heap₁, out⟩, hcopy, hout⟩ := rejected
      split at hcopy
      · obtain ⟨heap₂, -, hcopy⟩ := Option.bind_eq_some_iff.1 hcopy
        obtain ⟨rfl, rfl⟩ := Prod.mk.inj (Option.some.inj hcopy)
        exact absurd hout (by simp)
      · exact absurd hcopy (by simp)
  | _ => exact absurd rejected (by simp [Call.enter])

/-- A step is safe exactly if it does not enqueue into a queue that has been destroyed. -/
theorem safeAt_iff {o o' : Option System} {e : LifeEvent} (int : size ≤ 2147483647)
    (pos : 0 < size) (inv : LifeInv size es o) (hstep : LifeStep o e o') :
    SafeAt es e ↔ (Destroyed es → ¬ e.Enqueues) := by
  cases hstep with
  | @call s s' e hstep =>
    cases hstep with
    | enter _ _ => exact ⟨fun _ _ => id, fun _ => ⟨id, fun _ => trivial⟩⟩
    | reject _ rejected =>
      refine ⟨fun _ _ => id, fun _ => ⟨id, fun _ => ?_⟩⟩
      rw [LifeEvent.Refused, Call.enter_inr rejected]
      decide
    | @locked t cs q' r _ done =>
      rcases inv with ⟨xs, -, ⟨alive, hq⟩ | ⟨gone, -, hq⟩⟩
      · exact ⟨fun _ h => absurd h alive, fun _ => ⟨id, fun h => absurd h alive⟩⟩
      · rcases hq.exec cs with ⟨r', hexec, refused, hne⟩ | ⟨hexec, -⟩
        · obtain ⟨-, rfl⟩ := Prod.mk.inj (Option.some.inj (done.symm.trans hexec))
          refine ⟨fun _ _ => ?_, fun _ => ⟨id, fun _ => refused⟩⟩
          cases cs with
          | enqueue data => exact absurd rfl (hne pos data)
          | _ => exact id
        · exact absurd (done.symm.trans hexec) (by simp)
  | destroy _ _ _ => exact ⟨fun _ _ => id, fun _ => ⟨id, fun _ => trivial⟩⟩
  | @fault s t cs ready stuck =>
    -- only the enqueue on the destroyed queue gets here
    obtain ⟨past, t', data, hes, gone, -⟩ := lifeStep_inv int inv (.fault (t := t) ready stuck)
    obtain ⟨rfl, hlast⟩ := List.append_singleton_inj.1 hes
    obtain ⟨rfl, rfl⟩ := LifeEvent.fault.inj hlast
    exact ⟨fun h => absurd trivial h.slots, fun h => absurd trivial (h gone)⟩
  | @destroyFault s t idle stuck =>
    obtain ⟨past, t', data, hes, -⟩ := lifeStep_inv int inv (.destroyFault (t := t) idle stuck)
    exact absurd (List.append_singleton_inj.1 hes).2 (by simp)

/-- A run of any number of threads and teardowns goes through no `NULL` `qdata`, and refuses
after a teardown, exactly if none of the threads executes the critical section of an enqueue
after a teardown. -/
theorem run_safe_iff {q₀ q : Squeue} {size : Int} {ok : Bool} (int : InInt size)
    (pos : 1 ≤ size) (init : squeueInit q₀ size ok = (q, 0)) {heap : Payloads}
    {es : List LifeEvent} {o : Option System}
    (run : Run LifeStep (some (System.start q heap)) es o) :
    Throughout SafeAt es ↔ Throughout (fun past e => Destroyed past → ¬ e.Enqueues) es := by
  have hint : size.toNat ≤ 2147483647 := by have := int.2; omega
  induction run with
  | nil => exact ⟨fun _ => throughout_nil, fun _ => throughout_nil⟩
  | @snoc es o o' e run hstep ih =>
    rw [throughout_concat_iff, throughout_concat_iff]
    exact and_congr ih (safeAt_iff hint (by omega) (run_inv int init run) hstep)

/-- A destroyed queue with one slot: a dequeue is refused, an enqueue is not. -/
theorem run_safe_iff_one_slot : ∃ es : List LifeEvent,
    es.length = 3 ∧ (∃ t items, LifeEvent.destroy t items ∈ es) ∧
      (Throughout SafeAt es ↔ Throughout (fun past e => Destroyed past → ¬ e.Enqueues) es) := by
  let q₀ : Squeue := ⟨5, 5, 5, 5, none⟩
  let q : Squeue := ⟨0, 0, 0, 1, some [⟨0, 0⟩]⟩
  have init : squeueInit q₀ 1 true = (q, 0) := by decide
  let q' : Squeue := ⟨0, 0, 0, 1, none⟩
  have start : Run LifeStep (some (System.start q .empty)) [] (some (System.start q .empty)) := .nil
  have teardown : LifeStep (some (System.start q .empty)) (.destroy 2 [])
      (some (System.start q' .empty)) :=
    @LifeStep.destroy _ _ none 1 .zero ⟨q', .zero, .empty, [], []⟩ rfl rfl
  have run := ((start.snoc teardown).snoc
    (.call (.enter (t := 1) (c := .dequeue) (m := none) rfl rfl))).snoc
    (.call (.locked (t := 1) rfl rfl))
  exact ⟨_, rfl, ⟨2, [], by simp⟩, run_safe_iff (by decide) (by decide) init run⟩

/-- An enqueue after the teardown writes through `NULL`. -/
theorem run_not_safe : ∃ (q₀ q : Squeue) (es : List LifeEvent) (o : Option System),
    squeueInit q₀ 1 true = (q, 0) ∧ Run LifeStep (some (System.start q .empty)) es o ∧
      ¬ Throughout SafeAt es := by
  let q₀ : Squeue := ⟨5, 5, 5, 5, none⟩
  let q : Squeue := ⟨0, 0, 0, 1, some [⟨0, 0⟩]⟩
  let q' : Squeue := ⟨0, 0, 0, 1, none⟩
  have start : Run LifeStep (some (System.start q .empty)) [] (some (System.start q .empty)) := .nil
  have teardown : LifeStep (some (System.start q .empty)) (.destroy 2 [])
      (some (System.start q' .empty)) :=
    @LifeStep.destroy _ _ none 1 .zero ⟨q', .zero, .empty, [], []⟩ rfl rfl
  have run := ((start.snoc teardown).snoc
    (.call (.enter (t := 1) (c := .enqueue ⟨7, 1⟩) (m := none) rfl rfl))).snoc
    (@LifeStep.fault _ 1 (.enqueue ⟨7, 1⟩) rfl rfl)
  refine ⟨q₀, q, _, none, by decide, run, fun h => ?_⟩
  exact ((throughout_concat_iff _ _).1 h).2.slots trivial

end CFunction.ArrayQueue
