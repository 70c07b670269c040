import CFunction.Queue.ArrayQueue
import CFunction.Misc.Circular
import CFunction.Misc.Fifo

/-!
# The array queue is a bounded FIFO

`Holds size q xs` relates a `squeue_t` to the abstract queue: `count` is the number of items,
the items lie in order from `head` on, wrapping around, and every other slot is `{NULL,0}`.
Every critical section keeps the relation and answers as the abstract queue does, so a run of
any number of threads is a run of `Fifo.Step`.
-/

namespace CFunction.ArrayQueue
open Circular

/-- `q` has `size` slots and stores `xs`, oldest item first. -/
structure Holds (size : Nat) (q : Squeue) (xs : List SqueueData) : Prop where
  size_eq : q.size = size
  count_eq : q.count = xs.length
  fits : xs.length ≤ size
  layout : ∃ slots : List SqueueData, ∃ h : Nat, q.qdata = some slots ∧ slots.length = size ∧
    q.head = h ∧ Layout .zero slots h xs ∧
    (0 < size → h < size ∧ q.tail = ((h + xs.length) % size : Nat))

variable {size : Nat} {q q' : Squeue} {xs : List SqueueData}

/-- The step of both indices, `(x + 1) % size`. -/
theorem next_index {x : Nat} (hx : x < size) (int : size ≤ 2147483647) :
    intMod (toInt32 ((x : Int) + 1)) size = some (((x + 1) % size : Nat) : Int) := by
  rw [toInt32_of_inInt (by unfold InInt; omega)]
  exact intMod_nat (x + 1) (by omega)

theorem load_eq {slots : List SqueueData} {i : Int} {k : Nat} (hs : q.qdata = some slots)
    (hi : i = k) : q.load i = slots[k]? := by
  simp [Squeue.load, hs, hi]

theorem store_eq {slots : List SqueueData} {i : Int} {k : Nat} (hs : q.qdata = some slots)
    (hi : i = k) (hk : k < slots.length) (d : SqueueData) :
    q.store i d = some { q with qdata := some (slots.set k d) } := by
  simp [Squeue.store, hs, hi, hk]

/-- `squeue_init` establishes the relation with the empty queue. -/
theorem holds_init {size : Int} {q₀ q : Squeue} {ok : Bool}
    (init : squeueInit q₀ size ok = (q, 0)) : 0 ≤ size ∧ Holds size.toNat q [] := by
  unfold squeueInit at init
  split at init
  · rename_i hok
    obtain ⟨rfl, -⟩ := Prod.mk.inj init
    refine ⟨hok.1, ⟨by simp [hok.1], rfl, Nat.zero_le _, ?_⟩⟩
    refine ⟨_, 0, rfl, List.length_replicate, rfl, layout_nil _ _ _, fun hpos => ⟨hpos, ?_⟩⟩
    simp
  · simp at init

/-- With a free slot the item is appended and the code is `0`. -/
theorem enqueueLocked_room (hq : Holds size q xs) (int : size ≤ 2147483647)
    (room : xs.length < size) (data : SqueueData) :
    ∃ q', enqueueLocked q data = some (q', 0) ∧ Holds size q' (xs ++ [data]) := by
  obtain ⟨slots, h, hslots, hlen, hhead, hlay, hidx⟩ := hq.layout
  obtain ⟨hh, htail⟩ := hidx (Nat.zero_lt_of_lt room)
  have hpos : (h + xs.length) % size < size := Nat.mod_lt _ (Nat.zero_lt_of_lt room)
  have hlt : q.count < q.size := by rw [hq.count_eq, hq.size_eq]; omega
  have hstore := store_eq hslots htail (by rw [hlen]; exact hpos) data
  have hnext : intMod (toInt32 (q.tail + 1)) q.size =
      some (((h + xs.length + 1) % size : Nat) : Int) := by
    rw [htail, hq.size_eq, next_index hpos int, Nat.mod_add_mod]
  have hcount : toInt32 (q.count + 1) = (xs ++ [data]).length := by
    rw [hq.count_eq, toInt32_of_inInt (by unfold InInt; omega)]; simp
  refine ⟨{ q with
    tail := ((h + xs.length + 1) % size : Nat)
    count := toInt32 (q.count + 1)
    qdata := some (slots.set ((h + xs.length) % size) data) }, ?_, ?_⟩
  · simp only [enqueueLocked, if_pos hlt, hstore, hnext, Option.bind_eq_bind, Option.bind_some]
  · refine ⟨hq.size_eq, hcount, by simp; omega, ?_⟩
    refine ⟨_, h, rfl, by rw [List.length_set, hlen], hhead, ?_, fun _ => ⟨hh, ?_⟩⟩
    · rw [← hlen]; exact hlay.push (by omega)
    · rw [List.length_append, Nat.add_assoc]; rfl

/-- Without a free slot nothing changes and the code is `-1`. -/
theorem enqueueLocked_full (hq : Holds size q xs) (full : ¬ xs.length < size)
    (data : SqueueData) : enqueueLocked q data = some (q, -1) := by
  have hlt : ¬ q.count < q.size := by rw [hq.count_eq, hq.size_eq]; omega
  simp only [enqueueLocked, if_neg hlt]

/-- A dequeue hands out the oldest item and clears its slot. -/
theorem dequeueLocked_cons {x : SqueueData} (hq : Holds size q (x :: xs))
    (int : size ≤ 2147483647) :
    ∃ q', dequeueLocked q = some (q', 0, some x) ∧ Holds size q' xs := by
  obtain ⟨slots, h, hslots, hlen, hhead, hlay, hidx⟩ := hq.layout
  have hfits : xs.length + 1 ≤ size := hq.fits
  obtain ⟨hh, htail⟩ := hidx (by omega)
  have hpos : q.count > 0 := by rw [hq.count_eq]; simp
  have hload : q.load q.head = some x := by
    rw [load_eq hslots hhead]; exact hlay.first (by omega)
  have hstore : ∀ d, q.store q.head d = some { q with qdata := some (slots.set h d) } := by
    exact store_eq hslots hhead (by omega)
  -- the two fields of the slot are cleared one after the other
  have hslots' : Squeue.qdata { q with qdata := some (slots.set h { x with pdata := 0 }) } =
      some (slots.set h { x with pdata := 0 }) := rfl
  have hreload : Squeue.load { q with qdata := some (slots.set h { x with pdata := 0 }) } q.head
      = some { x with pdata := 0 } := by
    rw [load_eq hslots' hhead]; exact List.getElem?_set_self (by omega)
  have hclear : Squeue.store { q with qdata := some (slots.set h { x with pdata := 0 }) } q.head
      ⟨0, 0⟩ = some { q with qdata := some (slots.set h ⟨0, 0⟩) } := by
    rw [store_eq hslots' hhead (by rw [List.length_set]; omega)]; simp
  have hnext : intMod (toInt32 (q.head + 1)) q.size = some (((h + 1) % size : Nat) : Int) := by
    rw [hhead, hq.size_eq, next_index hh int]
  have hcount : toInt32 (q.count - 1) = xs.length := by
    rw [hq.count_eq, toInt32_of_inInt (by unfold InInt; simp; omega)]; simp
  refine ⟨{ q with
    head := ((h + 1) % size : Nat)
    count := toInt32 (q.count - 1)
    qdata := some (slots.set h ⟨0, 0⟩) }, ?_, ?_⟩
  · simp only [dequeueLocked, if_pos hpos, hload, hstore, Option.bind_eq_bind, Option.bind_some,
      hreload, hclear, hnext]
  · refine ⟨hq.size_eq, hcount, by omega, ?_⟩
    refine ⟨_, (h + 1) % size, rfl, by rw [List.length_set, hlen], rfl, ?_, fun hs => ?_⟩
    · rw [← hlen]; exact hlay.pop (by omega) (by omega)
    · refine ⟨Nat.mod_lt _ hs, ?_⟩
      show q.tail = _
      rw [htail, List.length_cons, Nat.mod_add_mod]
      congr 2
      omega

/-- The oldest item is the one at `head`. -/
theorem Holds.load_head {x : SqueueData} (hq : Holds size q (x :: xs)) :
    q.load q.head = some x := by
  obtain ⟨slots, h, hslots, hlen, hhead, hlay, hidx⟩ := hq.layout
  have hfits : xs.length + 1 ≤ size := hq.fits
  rw [load_eq hslots hhead]
  exact hlay.first (by have := hidx (by omega); omega)

/-- A dequeue from an empty queue changes nothing and returns `-1`. -/
theorem dequeueLocked_nil (hq : Holds size q []) : dequeueLocked q = some (q, -1, none) := by
  have hpos : ¬ q.count > 0 := by rw [hq.count_eq]; simp
  simp only [dequeueLocked, if_neg hpos]

/-! ## Critical sections -/

/-- The answer of a critical section, in terms of the state it starts from: an enqueue
succeeds exactly below `size`, a dequeue exactly above zero, the two tests compare `count`,
and whatever does not succeed leaves the queue as it was. -/
def Replies (q : Squeue) (cs : CriticalSection) (q' : Squeue) (r : Result) : Prop :=
  match cs with
  | .enqueue _ => if q.count < q.size then r = .code 0 else r = .code (-1) ∧ q' = q
  | .dequeue =>
    if 0 < q.count then r = .taken 0 (q.load q.head) else r = .taken (-1) none ∧ q' = q
  | .isFull => r = .answer (decide (q.count = q.size)) ∧ q' = q
  | .isEmpty => r = .answer (decide (q.count = 0)) ∧ q' = q

/-- The abstract operation that a section with its result amounts to. -/
def CriticalSection.op : CriticalSection → Result → Option (Fifo.Op SqueueData)
  | .enqueue data, .code ret => some (.put data (ret = 0))
  | .dequeue, .taken ret out => some (.take (if ret = 0 then out else none))
  | .isFull, .answer b => some (.isFull b)
  | .isEmpty, .answer b => some (.isEmpty b)
  | _, _ => none

/-- Every critical section terminates, answers as `Replies` says and is one step of the
abstract queue. -/
theorem exec_spec (hq : Holds size q xs) (int : size ≤ 2147483647) (cs : CriticalSection) :
    ∃ q' r op xs', cs.exec q = some (q', r) ∧ Replies q cs q' r ∧ cs.op r = some op ∧
      Fifo.Step size xs op xs' ∧ Holds size q' xs' := by
  have hcount := hq.count_eq
  have hsize := hq.size_eq
  cases cs with
  | enqueue data =>
    by_cases room : xs.length < size
    · obtain ⟨q', hexec, hq'⟩ := enqueueLocked_room hq int room data
      refine ⟨q', .code 0, _, _, ?_, ?_, rfl, .put data room, hq'⟩
      · simp [CriticalSection.exec, squeueEnqueue, hexec]
      · simp only [Replies, if_pos (show q.count < q.size by omega)]
    · refine ⟨q, .code (-1), .put data false, _, ?_, ?_, rfl, .putFull data room, hq⟩
      · simp [CriticalSection.exec, squeueEnqueue, enqueueLocked_full hq room]
      · simp only [Replies, if_neg (show ¬ q.count < q.size by omega), and_self]
  | dequeue =>
    cases xs with
    | nil =>
      refine ⟨q, .taken (-1) none, _, _, ?_, ?_, rfl, .takeEmpty, hq⟩
      · simp [CriticalSection.exec, squeueDequeue, dequeueLocked_nil hq]
      · simp only [List.length_nil] at hcount
        simp only [Replies, if_neg (show ¬ 0 < q.count by omega), and_self]
    | cons x xs =>
      obtain ⟨q', hexec, hq'⟩ := dequeueLocked_cons hq int
      refine ⟨q', .taken 0 (some x), _, _, ?_, ?_, rfl, .take x, hq'⟩
      · simp [CriticalSection.exec, squeueDequeue, hexec]
      · simp only [List.length_cons] at hcount
        simp only [Replies, if_pos (show 0 < q.count by omega), hq.load_head]
  | isFull =>
    refine ⟨q, .answer (squeueIsFull q), _, _, rfl, ⟨rfl, rfl⟩, rfl, ?_, hq⟩
    have : squeueIsFull q = decide (xs.length = size) := by
      simp only [squeueIsFull, decide_eq_decide]; omega
    rw [this]
    exact .isFull
  | isEmpty =>
    refine ⟨q, .answer (squeueIsEmpty q), _, _, rfl, ⟨rfl, rfl⟩, rfl, ?_, hq⟩
    have : squeueIsEmpty q = decide (xs.length = 0) := by
      simp only [squeueIsEmpty, decide_eq_decide]; omega
    rw [this]
    exact .isEmpty

/-! ## Threads -/

/-- With its memory, `squeue_enqueue_ext` comes to its lock, with a copy of the bytes. -/
theorem enter_enqueueExt {heap heap' : Payloads} {p : Ptr} {src : List UInt8} {length : Nat}
    (hlen : length ≤ src.length) (hm : heap.malloc p (src.take length) = some heap') :
    (Call.enqueueExt src length).enter heap (some p) =
      some (heap', .inl (.enqueue ⟨p, length⟩)) := by
  simp only [Call.enter, enqueueExtCopy, if_pos hlen, hm, Option.bind_eq_bind, Option.bind_some]

/-- The abstract operation of an event; what happens outside the lock is silent. -/
def Event.op : Event → Option (Fifo.Op SqueueData)
  | .locked _ cs r => cs.op r
  | _ => none

/-- Any number of threads around one array queue behave as one bounded FIFO queue. -/
theorem step_simulates (int : size ≤ 2147483647) :
    Run.Simulates Step (Fifo.Step size) Event.op fun s xs => Holds size s.queue xs := by
  intro s e t xs hs hstep
  cases hstep with
  | enter _ _ => exact hs
  | reject _ _ => exact hs
  | @locked t cs q r _ done =>
    obtain ⟨q', r', op, ys, hexec, -, hop, hfifo, hq'⟩ := exec_spec hs int cs
    obtain ⟨rfl, rfl⟩ := Prod.mk.inj (Option.some.inj (done.symm.trans hexec))
    simp only [Event.op, hop]
    exact ⟨ys, hfifo, hq'⟩

theorem taken_op (es : List Event) : Fifo.taken (es.filterMap Event.op) = dequeued es := by
  unfold Fifo.taken dequeued
  rw [List.filterMap_filterMap]
  congr 1
  funext e
  rcases e with _ | _ | ⟨t, cs, r⟩
  · rfl
  · rfl
  · cases cs <;> cases r <;> simp [Event.op, CriticalSection.op]
    split <;> simp_all

theorem accepted_op (es : List Event) : Fifo.accepted (es.filterMap Event.op) = enqueued es := by
  unfold Fifo.accepted enqueued
  rw [List.filterMap_filterMap]
  congr 1
  funext e
  rcases e with _ | _ | ⟨t, cs, r⟩
  · rfl
  · rfl
  · cases cs <;> cases r <;> simp [Event.op, CriticalSection.op]
    split <;> simp_all

/-- A call that has returned something other than zero. -/
def Event.Failed : Event → Prop
  | .enter _ _ _ => False
  | .reject _ _ _ ret => ret ≠ 0
  | .locked _ _ (.code ret) => ret ≠ 0
  | .locked _ _ (.taken ret _) => ret ≠ 0
  | .locked _ _ (.answer b) => b = true

/-- After the history `es` the shared queue is a FIFO queue of capacity `size` storing `xs`. -/
structure IsFifo (size : Int) (es : List Event) (s : System) (xs : List SqueueData) : Prop where
  size_eq : s.queue.size = size
  count_eq : s.queue.count = xs.length
  count_range : 0 ≤ s.queue.count ∧ s.queue.count ≤ size
  head_range : 1 ≤ size → 0 ≤ s.queue.head ∧ s.queue.head < size
  tail_range : 1 ≤ size → 0 ≤ s.queue.tail ∧ s.queue.tail < size
  tail_eq : 1 ≤ size → s.queue.tail = (s.queue.head + s.queue.count) % size
  /-- From `head` on the slots hold `xs` in order, and then `{NULL,0}`. -/
  slots : ∀ i : Nat, (i : Int) < size →
    s.queue.load ((s.queue.head + i) % size) = some (xs[i]?.getD .zero)
  /-- Nothing is lost, duplicated or reordered. -/
  balance : dequeued es ++ xs = enqueued es
  replies : ∀ cs : CriticalSection, ∃ q r, cs.exec s.queue = some (q, r) ∧ Replies s.queue cs q r
  failed : ∀ e s', Step s e s' → e.Failed → s'.queue = s.queue
  /-- An `squeue_enqueue_ext` that got its memory goes on to the lock. -/
  granted : ∀ (src : List UInt8) (length : Nat) (p : Ptr) (heap : Payloads), length ≤ src.length →
    s.heap.malloc p (src.take length) = some heap →
      (Call.enqueueExt src length).enter s.heap (some p) = some (heap, .inl (.enqueue ⟨p, length⟩))

/-- A call that returns something other than zero has not touched the queue. -/
theorem failed_unchanged {s s' : System} {e : Event}
    (total : ∀ cs : CriticalSection,
      ∃ q r, cs.exec s.queue = some (q, r) ∧ Replies s.queue cs q r)
    (hstep : Step s e s') (failed : e.Failed) : s'.queue = s.queue := by
  cases hstep with
  | enter _ _ => exact failed.elim
  | reject _ _ => rfl
  | @locked t cs q r _ done =>
    obtain ⟨q', r', hexec, hrep⟩ := total cs
    obtain ⟨rfl, rfl⟩ := Prod.mk.inj (Option.some.inj (done.symm.trans hexec))
    cases cs <;> simp only [Replies] at hrep
    · split at hrep
      · subst hrep; exact absurd rfl failed
      · exact hrep.2
    · split at hrep
      · subst hrep; exact absurd rfl failed
      · exact hrep.2
    · exact hrep.2
    · exact hrep.2

/-- The relation to the abstract queue, spelled out on the fields and slots. -/
theorem Holds.isFifo {es : List Event} {s : System} (hq : Holds size s.queue xs)
    (int : size ≤ 2147483647) (balance : dequeued es ++ xs = enqueued es) :
    IsFifo size es s xs := by
  obtain ⟨slots, h, hslots, hlen, hhead, hlay, hidx⟩ := hq.layout
  have hcount := hq.count_eq
  have hfits := hq.fits
  have total : ∀ cs : CriticalSection,
      ∃ q r, cs.exec s.queue = some (q, r) ∧ Replies s.queue cs q r := by
    intro cs
    obtain ⟨q', r, _, _, hexec, hrep, -⟩ := exec_spec hq int cs
    exact ⟨q', r, hexec, hrep⟩
  have htail : 1 ≤ (size : Int) → s.queue.tail = ((h + xs.length) % size : Nat) ∧ h < size :=
    fun hs => ⟨(hidx (by omega)).2, (hidx (by omega)).1⟩
  refine ⟨hq.size_eq, hcount, by omega, fun hs => ?_, fun hs => ?_, fun hs => ?_, ?_, balance,
    total, fun _ _ => failed_unchanged total, fun _ _ _ _ => enter_enqueueExt⟩
  · have := htail hs; omega
  · have := Nat.mod_lt (h + xs.length) (show size > 0 by omega)
    have := htail hs; omega
  · rw [(htail hs).1, hhead, hcount]; push_cast; rfl
  · intro i hi
    have hpos : ((s.queue.head + i) % size : Int) = ((h + i) % slots.length : Nat) := by
      rw [hhead, hlen]; push_cast; rfl
    rw [load_eq hslots hpos]
    exact hlay i (by omega)

/-- The array queue refines a bounded FIFO queue: after any run of any number of threads on a
queue that `squeue_init` has set up, the fields and slots describe a list of items, what was
dequeued followed by this list is what was enqueued, and the answers are those of a queue of
capacity `size`. -/
theorem squeue_run_isFifo {q₀ q : Squeue} {size : Int} {ok : Bool} (int : InInt size)
    (init : squeueInit q₀ size ok = (q, 0)) {heap : Payloads} {es : List Event} {s : System}
    (run : Run Step (System.start q heap) es s) : ∃ xs, IsFifo size es s xs := by
  obtain ⟨hnonneg, hinit⟩ := holds_init init
  have hint : size.toNat ≤ 2147483647 := by have := int.2; omega
  obtain ⟨xs, hrun, hxs⟩ := run.simulate (step_simulates hint) hinit
  have balance := Fifo.run_balance hrun
  rw [taken_op, accepted_op] at balance
  have hfifo := hxs.isFifo hint balance
  rw [Int.toNat_of_nonneg hnonneg] at hfifo
  exact ⟨xs, hfifo⟩

/-- Two threads on a queue with one slot: the second enqueue finds it full. -/
theorem squeue_run_isFifo_one_slot : ∃ (es : List Event) (s : System) (xs : List SqueueData),
    es.length = 6 ∧ dequeued es = [⟨7, 2⟩] ∧ IsFifo 1 es s xs := by
  let q₀ : Squeue := ⟨5, 5, 5, 5, none⟩
  let q : Squeue := ⟨0, 0, 0, 1, some [⟨0, 0⟩]⟩
  have init : squeueInit q₀ 1 true = (q, 0) := by decide
  have start : Run Step (System.start q .empty) [] (System.start q .empty) := .nil
  have run := (((((start.snoc
    (Step.enter (t := 1) (c := .enqueueExt [65, 0] 2) (m := some 7) rfl rfl)).snoc
    (Step.enter (t := 2) (c := .enqueue ⟨9, 4⟩) (m := none) rfl rfl)).snoc
    (Step.locked (t := 1) rfl rfl)).snoc
    (Step.locked (t := 2) rfl rfl)).snoc
    (Step.enter (t := 1) (c := .dequeue) (m := none) rfl rfl)).snoc
    (Step.locked (t := 1) rfl rfl)
  obtain ⟨xs, h⟩ := squeue_run_isFifo (by decide) init run
  exact ⟨_, _, xs, rfl, rfl, h⟩

end CFunction.ArrayQueue
