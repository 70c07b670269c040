import CFunction.Queue.ArrayQueueDestroy
import CFunction.Queue.Proofs.ArrayQueueFifo

/-!
# What a teardown does to an array queue

The loop of `squeue_destroy` takes the items out one by one, so its measure is `count`, and it
ends with an empty queue without slots. Every later access is then decided by `count < size`
and `count > 0`: a dequeue is refused, an enqueue is not.
-/

namespace CFunction.ArrayQueue
open Circular

variable {size : Nat} {q q' : Squeue} {xs : List SqueueData}

/-- `xs` is what `q` stores, oldest item first. -/
structure Contents (q : Squeue) (xs : List SqueueData) : Prop where
  count_eq : q.count = xs.length
  slots : ∀ i : Nat, i < xs.length → q.load ((q.head + i) % q.size) = xs[i]?

/-- `q` has its slots and stores `xs`. -/
structure Alive (size : Nat) (q : Squeue) (xs : List SqueueData) : Prop where
  holds : Holds size q xs
  no_slots : size = 0 → q.head = q.tail

/-- `q` has been destroyed. -/
structure Gone (size : Nat) (q : Squeue) : Prop where
  size_eq : q.size = size
  count_eq : q.count = 0
  head_eq : q.head = q.tail
  qdata_eq : q.qdata = none

theorem alive_init {size : Int} {q₀ q : Squeue} {ok : Bool}
    (init : squeueInit q₀ size ok = (q, 0)) : Alive size.toNat q [] := by
  refine ⟨(holds_init init).2, fun _ => ?_⟩
  unfold squeueInit at init
  split at init
  · obtain ⟨rfl, -⟩ := Prod.mk.inj init
    rfl
  · exact absurd init (by simp)

theorem Holds.slot (hq : Holds size q xs) {i : Nat} (hi : i < size) :
    q.load ((q.head + i) % q.size) = some (xs[i]?.getD .zero) := by
  obtain ⟨slots, h, hslots, hlen, hhead, hlay, -⟩ := hq.layout
  have hpos : (q.head + i) % q.size = ((h + i) % slots.length : Nat) := by
    rw [hhead, hq.size_eq, hlen]; push_cast; rfl
  rw [load_eq hslots hpos]
  exact hlay i (by omega)

theorem Alive.contents (hq : Alive size q xs) : Contents q xs := by
  refine ⟨hq.holds.count_eq, fun i hi => ?_⟩
  have hfits := hq.holds.fits
  rw [hq.holds.slot (by omega), List.getElem?_eq_getElem hi]
  rfl

theorem Gone.contents (hq : Gone size q) : Contents q [] :=
  ⟨hq.count_eq, fun i hi => absurd hi (Nat.not_lt_zero i)⟩

/-- A dequeue moves `head` on and leaves `tail` where it is. -/
theorem dequeueLocked_indices {x : SqueueData} (done : dequeueLocked q = some (q', 0, some x)) :
    q'.tail = q.tail ∧ intMod (toInt32 (q.head + 1)) q.size = some q'.head := by
  unfold dequeueLocked at done
  split at done
  · simp only [Option.bind_eq_bind, Option.bind_eq_some_iff] at done
    obtain ⟨d, -, q₁, hq₁, slot, -, q₂, hq₂, head, hhead, hres⟩ := done
    have hsame : ∀ {p p' : Squeue} {i : Int} {d : SqueueData}, p.store i d = some p' →
        p'.head = p.head ∧ p'.tail = p.tail ∧ p'.size = p.size := by
      intro p p' i d h
      simp only [Squeue.store, Option.bind_eq_bind, Option.bind_eq_some_iff] at h
      obtain ⟨slots, -, h⟩ := h
      split at h
      · obtain rfl := Option.some.inj h
        exact ⟨rfl, rfl, rfl⟩
      · exact absurd h (by simp)
    obtain ⟨hh₁, ht₁, hs₁⟩ := hsame hq₁
    obtain ⟨hh₂, ht₂, hs₂⟩ := hsame hq₂
    obtain ⟨rfl, -⟩ := Prod.mk.inj (Option.some.inj hres)
    rw [hh₂, hh₁, hs₂, hs₁] at hhead
    exact ⟨ht₂.trans ht₁, hhead⟩
  · exact absurd done (by simp)

/-- A dequeue hands out the oldest item and leaves `{NULL,0}` in its slot. -/
theorem Alive.dequeue {x : SqueueData} (hq : Alive size q (x :: xs)) (int : size ≤ 2147483647) :
    ∃ q', dequeueLocked q = some (q', 0, some x) ∧ Alive size q' xs ∧ 0 < size ∧
      q'.load (q.head % q.size) = some .zero ∧ q'.head = (q.head + 1) % q.size ∧
      q'.size = q.size := by
  obtain ⟨q', done, hq'⟩ := dequeueLocked_cons hq.holds int
  have hfits : xs.length + 1 ≤ size := hq.holds.fits
  have hsize := hq.holds.size_eq
  have hsize' : q'.size = q.size := hq'.size_eq.trans hsize.symm
  obtain ⟨htail, hhead⟩ := dequeueLocked_indices done
  obtain ⟨slots, h, -, -, hh, -, hidx⟩ := hq.holds.layout
  have hlt : h < size := (hidx (by omega)).1
  rw [hh, hsize, next_index hlt int] at hhead
  have hhead' : q'.head = (q.head + 1) % q.size := by
    rw [← Option.some.inj hhead, hh, hsize]; push_cast; rfl
  refine ⟨q', done, ⟨hq', fun h0 => absurd h0 (by omega)⟩, by omega, ?_, hhead', hsize'⟩
  -- the last offset from the new head is the slot just left
  have hlast := hq'.slot (i := size - 1) (by omega)
  have hpos : (q'.head + (size - 1 : Nat)) % q'.size = q.head % q.size := by
    rw [hsize', hhead', hsize, Int.emod_add_emod,
      show q.head + 1 + ((size - 1 : Nat) : Int) = q.head + size by omega, Int.add_emod_right]
  rw [hpos, List.getElem?_eq_none (by omega)] at hlast
  exact hlast

/-! ## The loop -/

variable {σ : Type} {destroy : Callback σ}

/-- What the callback does with one item. -/
def visit (destroy : Callback σ) (env : σ) (d : SqueueData) : Option σ :=
  match destroy with
  | none => some env
  | some f => (f env d).map Prod.fst

/-- `squeue_destroy` has ended as `t`: it has dequeued `xs` and nothing else, passed each item to
the callback once, oldest first and after its slot was cleared, and left an empty queue. -/
structure Drained (destroy : Callback σ) (q : Squeue) (xs : List SqueueData) (t : Teardown σ) :
    Prop where
  dequeued : t.dequeued = xs
  called : t.calls.map Prod.fst = if destroy.isSome then xs else []
  cleared : ∀ (k : Nat) c, t.calls[k]? = some c →
    c.2.load ((q.head + k) % q.size) = some .zero
  count_eq : t.queue.count = 0
  head_eq : t.queue.head = t.queue.tail
  qdata_eq : t.queue.qdata = none

/-- One round: the callback gets the oldest item. -/
theorem destroyRound_cons {t : Teardown σ} {x : SqueueData} {env : σ}
    (ht : Alive size t.queue (x :: xs)) (int : size ≤ 2147483647)
    (returns : visit destroy t.env x = some env) :
    ∃ t', destroyRound destroy t = some t' ∧ Alive size t'.queue xs ∧ t'.env = env ∧
      t'.dequeued = t.dequeued ++ [x] ∧
      t'.calls = t.calls ++ (if destroy.isSome then [(x, t'.queue)] else []) ∧ 0 < size ∧
      t'.queue.load (t.queue.head % t.queue.size) = some .zero ∧
      t'.queue.head = (t.queue.head + 1) % t.queue.size ∧ t'.queue.size = t.queue.size := by
  obtain ⟨q', done, hq', hpos, hclear, hhead, hsize⟩ := ht.dequeue int
  cases destroy with
  | none =>
    obtain rfl : t.env = env := Option.some.inj returns
    refine ⟨{ t with queue := q', data := x, dequeued := t.dequeued ++ [x] }, ?_, hq', rfl, rfl,
      by simp, hpos, hclear, hhead, hsize⟩
    simp [destroyRound, done, Teardown.callback]
  | some f =>
    simp only [visit, Option.map_eq_some_iff] at returns
    obtain ⟨⟨env', data⟩, hf, rfl⟩ := returns
    refine ⟨{ t with
      queue := q', data := data, env := env', dequeued := t.dequeued ++ [x]
      calls := t.calls ++ [(x, q')] }, ?_, hq', rfl, rfl, rfl, hpos, hclear, hhead, hsize⟩
    simp [destroyRound, done, Teardown.callback, hf]

/-- The loop by induction on what is stored: `count` is the length of that list, and the `k`-th
call finds the slot `k` places after the first `head` cleared. -/
theorem destroyLoop_spec (int : size ≤ 2147483647) :
    ∀ (xs : List SqueueData) (t : Teardown σ) (env : σ), Alive size t.queue xs →
      xs.foldlM (visit destroy) t.env = some env →
      ∃ t' : Teardown σ, ∃ cs, (∀ fuel,
          destroyLoop destroy fuel t = if xs.length < fuel then some t' else none) ∧
        Alive size t'.queue [] ∧ t'.env = env ∧ t'.dequeued = t.dequeued ++ xs ∧
        t'.calls = t.calls ++ cs ∧ (cs.map Prod.fst = if destroy.isSome then xs else []) ∧
        ∀ (k : Nat) c, cs[k]? = some c →
          c.2.load ((t.queue.head + k) % t.queue.size) = some .zero := by
  intro xs
  induction xs with
  | nil =>
    intro t env ht returns
    have hcount : ¬ t.queue.count > 0 := by rw [ht.holds.count_eq]; simp
    refine ⟨t, [], fun fuel => ?_, ht, Option.some.inj returns, by simp, by simp, by simp,
      by simp⟩
    cases fuel with
    | zero => rfl
    | succ fuel => rw [destroyLoop, if_neg hcount]; simp
  | cons x xs ih =>
    intro t env ht returns
    rw [List.foldlM_cons, Option.bind_eq_bind, Option.bind_eq_some_iff] at returns
    obtain ⟨env₁, hvisit, returns⟩ := returns
    obtain ⟨t₁, hround, ht₁, henv, hdeq, hcalls, hpos, hclear, hhead, hsize⟩ :=
      destroyRound_cons ht int hvisit
    obtain ⟨t', cs, hloop, ht', henv', hdeq', hcalls', hitems, hcs⟩ :=
      ih t₁ env ht₁ (henv ▸ returns)
    have hcount : t.queue.count > 0 := by rw [ht.holds.count_eq, List.length_cons]; omega
    refine ⟨t', (if destroy.isSome then [(x, t₁.queue)] else []) ++ cs, fun fuel => ?_, ht',
      henv', by rw [hdeq', hdeq]; simp, by rw [hcalls', hcalls]; simp, ?_, ?_⟩
    · cases fuel with
      | zero => rfl
      | succ fuel =>
        rw [destroyLoop, if_pos hcount, hround, List.length_cons, Option.bind_eq_bind,
          Option.bind_some, hloop]
        simp only [Nat.add_lt_add_iff_right]
    · rw [List.map_append, hitems]
      cases destroy <;> rfl
    · intro k c hc
      cases destroy with
      | none =>
        have hnil : cs = [] := List.map_eq_nil_iff.1 hitems
        exact absurd hc (by simp [hnil])
      | some f =>
        cases k with
        | zero =>
          obtain rfl : (x, t₁.queue) = c := Option.some.inj hc
          rw [Nat.cast_zero, Int.add_zero]
          exact hclear
        | succ k =>
          have hk := hcs k c hc
          rw [hhead, hsize, Int.emod_add_emod] at hk
          rw [show t.queue.head + ((k + 1 : Nat) : Int) = t.queue.head + 1 + k by omega]
          exact hk

/-- Where the callback does not return, neither does the loop. -/
theorem destroyLoop_stuck (int : size ≤ 2147483647) :
    ∀ (xs : List SqueueData) (t : Teardown σ), Alive size t.queue xs →
      xs.foldlM (visit destroy) t.env = none → ∀ fuel, destroyLoop destroy fuel t = none := by
  intro xs
  induction xs with
  | nil => exact fun t _ stuck => absurd stuck (by simp)
  | cons x xs ih =>
    intro t ht stuck fuel
    have hcount : t.queue.count > 0 := by rw [ht.holds.count_eq, List.length_cons]; omega
    cases fuel with
    | zero => rfl
    | succ fuel =>
      rw [destroyLoop, if_pos hcount]
      rw [List.foldlM_cons, Option.bind_eq_bind] at stuck
      cases hvisit : visit destroy t.env x with
      | some env =>
        obtain ⟨t₁, hround, ht₁, henv, -⟩ := destroyRound_cons ht int hvisit
        rw [hvisit, Option.bind_some, ← henv] at stuck
        rw [hround]
        exact ih t₁ ht₁ stuck fuel
      | none =>
        obtain ⟨q', done, -⟩ := ht.dequeue int
        cases destroy with
        | none => exact absurd hvisit (by simp [visit])
        | some f =>
          have hf : f t.env x = none := by simpa [visit] using hvisit
          simp [destroyRound, done, Teardown.callback, hf]

/-- An empty queue has `head = tail`. -/
theorem Alive.head_tail (hq : Alive size q []) : q.head = q.tail := by
  rcases Nat.eq_zero_or_pos size with h0 | hpos
  · exact hq.no_slots h0
  · obtain ⟨slots, h, -, -, hhead, -, hidx⟩ := hq.holds.layout
    obtain ⟨hlt, htail⟩ := hidx hpos
    rw [hhead, htail, List.length_nil, Nat.add_zero, Nat.mod_eq_of_lt hlt]

/-- `squeue_destroy` on a queue that has its slots. -/
theorem Alive.teardown (hq : Alive size q xs) (int : size ≤ 2147483647) {env env' : σ}
    (data : SqueueData) (returns : xs.foldlM (visit destroy) env = some env') :
    ∃ t, (∀ fuel, squeueDestroy destroy fuel q env data =
        if xs.length < fuel then some t else none) ∧
      Drained destroy q xs t ∧ t.env = env' ∧ Gone size t.queue := by
  obtain ⟨t, cs, hloop, ht, henv, hdeq, hcalls, hitems, hcs⟩ :=
    @destroyLoop_spec _ _ destroy int xs ⟨q, data, env, [], []⟩ env' hq returns
  rw [List.nil_append] at hdeq hcalls
  refine ⟨{ t with queue := { t.queue with qdata := none } }, fun fuel => ?_, ?_, henv, ?_⟩
  · rw [squeueDestroy, hloop]
    split <;> rfl
  · refine ⟨hdeq, ?_, ?_, ht.holds.count_eq, ht.head_tail, rfl⟩
    · rw [← hitems, ← hcalls]
    · intro k c hc
      exact hcs k c (hcalls ▸ hc)
  · exact ⟨ht.holds.size_eq, ht.holds.count_eq, ht.head_tail, rfl⟩

/-- A teardown that has a result has taken out everything. -/
theorem Alive.teardown_result (hq : Alive size q xs) (int : size ≤ 2147483647) {fuel : Nat}
    {env : σ} {data : SqueueData} {t : Teardown σ}
    (done : squeueDestroy destroy fuel q env data = some t) :
    t.dequeued = xs ∧ Gone size t.queue := by
  cases returns : xs.foldlM (visit destroy) env with
  | none =>
    have hloop := destroyLoop_stuck int xs ⟨q, data, env, [], []⟩ hq returns fuel
    rw [squeueDestroy, hloop] at done
    exact absurd done (by simp)
  | some env' =>
    obtain ⟨t', hrun, drained, -, gone⟩ := hq.teardown int data returns
    rw [hrun] at done
    split at done
    · obtain rfl := Option.some.inj done
      exact ⟨drained.dequeued, gone⟩
    · exact absurd done (by simp)

/-- `squeue_destroy` on a queue that has been destroyed before. -/
theorem Gone.teardown (hq : Gone size q) (env : σ) (data : SqueueData) :
    ∃ t, (∀ fuel, squeueDestroy destroy fuel q env data = if 0 < fuel then some t else none) ∧
      Drained destroy q [] t ∧ t.env = env ∧ Gone size t.queue := by
  have hcount : ¬ q.count > 0 := by rw [hq.count_eq]; simp
  refine ⟨⟨{ q with qdata := none }, data, env, [], []⟩, fun fuel => ?_, ?_, rfl, ?_⟩
  · cases fuel with
    | zero => rfl
    | succ fuel => simp [squeueDestroy, destroyLoop, hcount]
  · exact ⟨rfl, by simp, by simp, hq.count_eq, hq.head_eq, rfl⟩
  · exact ⟨hq.size_eq, hq.count_eq, hq.head_eq, rfl⟩

theorem Gone.teardown_result (hq : Gone size q) {fuel : Nat} {env : σ} {data : SqueueData}
    {t : Teardown σ} (done : squeueDestroy destroy fuel q env data = some t) :
    t.dequeued = [] ∧ Gone size t.queue := by
  obtain ⟨t', hrun, drained, -, gone⟩ := @Gone.teardown _ _ _ destroy hq env data
  rw [hrun] at done
  split at done
  · obtain rfl := Option.some.inj done
    exact ⟨drained.dequeued, gone⟩
  · exact absurd done (by simp)

theorem foldlM_none (xs : List SqueueData) (env : σ) :
    xs.foldlM (visit none) env = some env := by
  induction xs with
  | nil => rfl
  | cons x xs ih => exact ih

/-! ## Releasing the payloads -/

/-- The buffers of the payloads of `xs`. -/
def payloads (xs : List SqueueData) : List Ptr := (xs.map SqueueData.pdata).filter (· ≠ 0)

theorem mem_payloads {p : Ptr} : p ∈ payloads xs ↔ p ≠ 0 ∧ ∃ x ∈ xs, x.pdata = p := by
  simp [payloads, and_comm]

theorem payloads_cons (x : SqueueData) (xs : List SqueueData) :
    payloads (x :: xs) = (if x.pdata ≠ 0 then [x.pdata] else []) ++ payloads xs := by
  by_cases h : x.pdata = 0 <;> simp [payloads, h]

/-- `squeue_data_destroy` on one item after the other frees their buffers, if these are allocated
and none is stored twice. -/
theorem foldlM_squeueDataDestroy :
    ∀ (xs : List SqueueData) (heap : Payloads), (∀ p ∈ payloads xs, heap.Live p) →
      (payloads xs).Nodup →
      ∃ heap', xs.foldlM (visit (some squeueDataDestroy)) heap = some heap' ∧
        ∀ p, heap'.block p = if p ∈ payloads xs then none else heap.block p := by
  intro xs
  induction xs with
  | nil => exact fun heap _ _ => ⟨heap, rfl, fun p => by simp [payloads]⟩
  | cons x xs ih =>
    intro heap live nodup
    rw [payloads_cons] at live nodup
    by_cases hx : x.pdata = 0
    · rw [if_neg (not_not.2 hx), List.nil_append] at live nodup
      obtain ⟨heap', hfold, hblock⟩ := ih heap live nodup
      refine ⟨heap', ?_, fun p => by rw [hblock, payloads_cons]; simp [hx]⟩
      rw [List.foldlM_cons]
      simp [visit, squeueDataDestroy, hx, hfold]
    · rw [if_pos hx, List.singleton_append] at live nodup
      obtain ⟨hfresh, nodup⟩ := List.nodup_cons.1 nodup
      have hlive : heap.Live x.pdata := live _ List.mem_cons_self
      obtain ⟨heap', hfold, hblock⟩ := ih (heap.erase x.pdata) (fun p hp => by
        rw [Heap.erase_live]
        exact ⟨fun e => hfresh (e ▸ hp), live p (List.mem_cons_of_mem _ hp)⟩) nodup
      refine ⟨heap', ?_, fun p => ?_⟩
      · rw [List.foldlM_cons]
        simp [visit, squeueDataDestroy, hx, Heap.free_eq hlive, hfold]
      · rw [hblock, Heap.erase_block, payloads_cons, if_pos hx]
        by_cases hp : p = x.pdata <;> simp [hp]

end CFunction.ArrayQueue
