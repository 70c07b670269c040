import CFunction.Queue.Interchange
import CFunction.Queue.Proofs.ArrayQueueFifo
import CFunction.Queue.Proofs.LinkedQueueDeque

/-!
# The two queues are interchangeable

Both queues conform to one bounded FIFO queue of byte strings, `Fifo.perform`: the array queue
keeps its items in order, the linked queue in reverse order. Equal requests therefore get equal
answers.
-/

namespace CFunction.Interchange

/-- The request that an operation makes of a queue of byte strings. -/
def Op.request : Op → Fifo.Request (List UInt8)
  | .enqueue src length => .put (src.take length)
  | .dequeue => .take
  | .isFull => .isFull
  | .isEmpty => .isEmpty

/-- A byte string as it is delivered. -/
def delivered (y : List UInt8) : Option (List UInt8) × Int := (some y, y.length)

/-- The answer that reports an abstract operation. -/
def report : Fifo.Op (List UInt8) → Answer
  | .put _ accepted => .code (if accepted then 0 else -1)
  | .take none => .item (-1) none
  | .take (some y) => .item 0 (some (delivered y))
  | .isFull b => .truth b
  | .isEmpty b => .truth b

/-- The common specification of the two queues. -/
def spec (n : Nat) (ys : List (List UInt8)) (op : Op) : Answer × List (List UInt8) :=
  (report (Fifo.perform n ys op.request).1, (Fifo.perform n ys op.request).2)

variable {n : Nat} {ys : List (List UInt8)}

theorem spec_enqueue_room {src : List UInt8} {length : Nat} (room : ys.length < n) :
    spec n ys (.enqueue src length) = (.code 0, ys ++ [src.take length]) := by
  simp [spec, Op.request, Fifo.perform, room, report]

theorem spec_enqueue_full {src : List UInt8} {length : Nat} (full : ¬ ys.length < n) :
    spec n ys (.enqueue src length) = (.code (-1), ys) := by
  simp [spec, Op.request, Fifo.perform, full, report]

/-- The blocks of a heap do not move when a new one is added. -/
theorem load_put_of_some {heap : Heap (List UInt8)} {p r : Ptr} {y b : List UInt8}
    (fresh : heap.Fresh p) (hr : heap.load r = some y) :
    (heap.put p b fresh.1).load r = some y := by
  have hne : r ≠ p := by
    rintro rfl
    rw [Heap.load, fresh.2] at hr
    cases hr
  rw [Heap.load, Heap.put_block, if_neg hne]
  exact hr

/-- What has been stored is still delivered after a further `malloc`. -/
theorem deliver_put {heap : Heap (List UInt8)} {p : Ptr} {b : List UInt8}
    (fresh : heap.Fresh p) {zs : List (Ptr × Int)}
    (hys : zs.map (deliver heap) = ys.map delivered) :
    zs.map (deliver (heap.put p b fresh.1)) = ys.map delivered := by
  rw [← hys]
  apply List.map_congr_left
  intro z hz
  have hmem : deliver heap z ∈ ys.map delivered := by
    rw [← hys]
    exact List.mem_map_of_mem hz
  obtain ⟨y, -, hy⟩ := List.mem_map.1 hmem
  have hload : heap.load z.1 = some y := (congrArg Prod.fst hy).symm
  rw [deliver, load_put_of_some fresh hload, deliver, hload]

/-- The new buffer delivers what was copied into it. -/
theorem deliver_new {heap : Heap (List UInt8)} {p : Ptr} (fresh : heap.Fresh p)
    {src : List UInt8} {length : Nat} (inside : length ≤ src.length) :
    deliver (heap.put p (src.take length) fresh.1) (p, length) = delivered (src.take length) := by
  simp [deliver, delivered, Heap.load, inside]

/-! ## The array queue -/

/-- The array queue holds items whose buffers carry `ys`. -/
def ArrayHolds (n : Nat) (s : ArrayState) (ys : List (List UInt8)) : Prop :=
  ∃ xs, ArrayQueue.Holds n s.queue xs ∧ (xs.map arrayOut).map (deliver s.heap) = ys.map delivered

theorem array_length_eq {heap : Heap (List UInt8)} {xs : List ArrayQueue.SqueueData}
    (hys : (xs.map arrayOut).map (deliver heap) = ys.map delivered) : xs.length = ys.length := by
  simpa using congrArg List.length hys

/-- The buffer is copied before the queue is looked at, and stays behind when it is full. -/
theorem arrayExec_enqueue {s : ArrayState} (hs : ArrayHolds n s ys) (int : n ≤ 2147483647)
    {src : List UInt8} {length : Nat} (inside : length ≤ src.length) {p : Ptr}
    (fresh : s.heap.Fresh p) :
    ∃ s', arrayExec s p (.enqueue src length) = some (s', (spec n ys (.enqueue src length)).1) ∧
      ArrayHolds n s' (spec n ys (.enqueue src length)).2 := by
  obtain ⟨xs, hq, hys⟩ := hs
  have hlen := array_length_eq hys
  have hcopy : ArrayQueue.enqueueExtCopy s.heap src length (some p) =
      some (s.heap.put p (src.take length) fresh.1, .inl ⟨p, length⟩) := by
    simp [ArrayQueue.enqueueExtCopy, inside, Heap.malloc_eq fresh]
  by_cases room : xs.length < n
  · obtain ⟨q', hexec, hq'⟩ := ArrayQueue.enqueueLocked_room hq int room ⟨p, length⟩
    rw [spec_enqueue_room (hlen ▸ room)]
    refine ⟨⟨q', s.heap.put p (src.take length) fresh.1⟩, ?_, _, hq', ?_⟩
    · simp [arrayExec, ArrayQueue.squeueEnqueueExt, hcopy, hexec]
    · rw [List.map_append, List.map_append, deliver_put fresh hys, List.map_append]
      exact congrArg _ (congrArg (fun z => [z]) (deliver_new fresh inside))
  · rw [spec_enqueue_full (hlen ▸ room)]
    refine ⟨⟨s.queue, s.heap.put p (src.take length) fresh.1⟩, ?_, xs, hq,
      deliver_put fresh hys⟩
    simp [arrayExec, ArrayQueue.squeueEnqueueExt, hcopy, ArrayQueue.enqueueLocked_full hq room]

/-- Every operation on the array queue returns, with the answer of the specification. -/
theorem arrayExec_spec {s : ArrayState} (hs : ArrayHolds n s ys) (int : n ≤ 2147483647)
    {op : Op} (legal : op.Legal) {p : Ptr}
    (fresh : ∀ src length, op = .enqueue src length → s.heap.Fresh p) :
    ∃ s', arrayExec s p op = some (s', (spec n ys op).1) ∧ ArrayHolds n s' (spec n ys op).2 := by
  cases op with
  | enqueue src length => exact arrayExec_enqueue hs int legal.2.2 (fresh src length rfl)
  | dequeue =>
    obtain ⟨xs, hq, hys⟩ := hs
    cases xs with
    | nil =>
      obtain rfl : ys = [] := List.map_eq_nil_iff.1 hys.symm
      refine ⟨s, ?_, [], hq, rfl⟩
      simp [arrayExec, ArrayQueue.squeueDequeue, ArrayQueue.dequeueLocked_nil hq, spec,
        Op.request, Fifo.perform, report]
    | cons x xs =>
      cases ys with
      | nil => cases hys
      | cons y ys =>
        obtain ⟨hx, hxs⟩ := List.cons.inj hys
        obtain ⟨q', hexec, hq'⟩ := ArrayQueue.dequeueLocked_cons hq int
        refine ⟨⟨q', s.heap⟩, ?_, xs, hq', hxs⟩
        simp [arrayExec, ArrayQueue.squeueDequeue, hexec, hx, spec, Op.request, Fifo.perform,
          report]
  | isFull =>
    obtain ⟨xs, hq, hys⟩ := hs
    refine ⟨s, ?_, xs, hq, hys⟩
    have hlen := array_length_eq hys
    have hfull : ArrayQueue.squeueIsFull s.queue = decide (ys.length = n) := by
      have hcount := hq.count_eq
      have hsize := hq.size_eq
      simp only [ArrayQueue.squeueIsFull, decide_eq_decide]
      omega
    simp only [arrayExec, hfull, spec, Op.request, Fifo.perform, report]
  | isEmpty =>
    obtain ⟨xs, hq, hys⟩ := hs
    refine ⟨s, ?_, xs, hq, hys⟩
    have hlen := array_length_eq hys
    have hempty : ArrayQueue.squeueIsEmpty s.queue = decide (ys.length = 0) := by
      have hcount := hq.count_eq
      simp only [ArrayQueue.squeueIsEmpty, decide_eq_decide]
      omega
    simp only [arrayExec, hempty, spec, Op.request, Fifo.perform, report]

theorem array_conforms (int : n ≤ 2147483647) :
    Run.Conforms ArrayStep (spec n) (·.op) (·.answer) (ArrayHolds n) := by
  rintro s _ s' ys hs ⟨op, legal, p, done⟩
  rename_i answer
  have fresh : ∀ src length, op = .enqueue src length → s.heap.Fresh p := by
    rintro src length rfl
    by_contra fresh
    have hmalloc : s.heap.malloc p (src.take length) = none := dif_neg fresh
    simp [arrayExec, ArrayQueue.squeueEnqueueExt, ArrayQueue.enqueueExtCopy, hmalloc] at done
  obtain ⟨s₁, hexec, hs₁⟩ := arrayExec_spec hs int legal fresh
  obtain ⟨rfl, rfl⟩ := Prod.mk.inj (Option.some.inj (done.symm.trans hexec))
  exact ⟨rfl, hs₁⟩

/-! ## The linked queue -/

/-- The linked queue holds, from back to front, items whose buffers carry `ys`. -/
def ListHolds (n : Nat) (w : LinkedQueue.World) (ys : List (List UInt8)) : Prop :=
  ∃ ps zs, LinkedQueue.Holds n w ps zs ∧ zs.reverse.map (deliver w.payload) = ys.map delivered

theorem list_length_eq {heap : Heap (List UInt8)} {zs : List (Ptr × Int)}
    (hys : zs.reverse.map (deliver heap) = ys.map delivered) : zs.length = ys.length := by
  simpa using congrArg List.length hys

/-- With a positive size the queue is full when `size` items are in it. -/
theorem full_iff (pos : 1 ≤ n) {zs : List (Ptr × Int)} (hlen : zs.length = ys.length) :
    Deque.Full (n : Int) zs ↔ ¬ ys.length < n := by
  unfold Deque.Full
  omega

/-- An enqueue that succeeds has copied the caller's bytes to its buffer. -/
theorem payload_of_enqueue {w w' : LinkedQueue.World} {src : List UInt8} {length : Nat}
    {node : Ptr × LinkedQueue.LqueueData} {b : Ptr} (fresh : w.payload.Fresh b)
    (done : LinkedQueue.lqueueEnqueueFrontExt w 1 1 src length (some node) (some b) =
      some (w', 0)) : w'.payload = w.payload.put b (src.take length) fresh.1 := by
  unfold LinkedQueue.lqueueEnqueueFrontExt LinkedQueue.enqueueWith at done
  split at done
  · cases done
  split at done
  · cases done
  obtain ⟨pdata, junk⟩ := node
  obtain ⟨nodes, -, done⟩ := Option.bind_eq_some_iff.1 done
  obtain ⟨payload, hcopy, done⟩ := Option.bind_eq_some_iff.1 done
  -- the remaining statements fill in the node and insert it
  obtain ⟨_, -, done⟩ := Option.bind_eq_some_iff.1 done
  obtain ⟨_, -, done⟩ := Option.bind_eq_some_iff.1 done
  obtain ⟨_, -, done⟩ := Option.bind_eq_some_iff.1 done
  obtain ⟨rfl, -⟩ := Prod.mk.inj (Option.some.inj done)
  have hmalloc : w.payload.malloc b (src.take length) = some payload := by
    unfold LinkedQueue.copyPayload at hcopy
    split at hcopy
    · exact hcopy
    · cases hcopy
  rw [Heap.malloc_eq fresh] at hmalloc
  exact (Option.some.inj hmalloc).symm

/-- The node is only allocated when there is room. -/
theorem listExec_enqueue {w : LinkedQueue.World} (hw : ListHolds n w ys) (pos : 1 ≤ n)
    (int : n ≤ 2147483647) {src : List UInt8} {length : Nat}
    {node : Ptr × LinkedQueue.LqueueData} {b : Ptr}
    (legal : ys.length < n →
      LinkedQueue.Legal w (.copy src (some b)) length (some node)) :
    ∃ w', listExec w node b (.enqueue src length) =
        some (w', (spec n ys (.enqueue src length)).1) ∧
      ListHolds n w' (spec n ys (.enqueue src length)).2 := by
  obtain ⟨ps, zs, hq, hys⟩ := hw
  have hlen := list_length_eq hys
  by_cases room : ys.length < n
  · have hroom : ¬ Deque.Full (n : Int) zs := by rw [full_iff pos hlen]; exact not_not.2 room
    have hlegal := legal room
    obtain ⟨-, hcopy⟩ := hlegal node.1 node.2 rfl
    obtain ⟨-, hinside, fresh⟩ := hcopy src b rfl
    have inside : length ≤ src.length := by simpa using hinside
    obtain ⟨w', hexec, hholds⟩ :=
      LinkedQueue.enqueueWith_room true (.copy src (some b)) hq hroom Nat.one_ne_zero hlegal
    have few : w.queue.count < 2147483647 := by rw [hq.count_eq]; omega
    rw [spec_enqueue_room room]
    refine ⟨w', ?_, _, _, hholds few, ?_⟩
    · simp [listExec, LinkedQueue.lqueueEnqueueFrontExt, hexec]
    · rw [payload_of_enqueue fresh hexec]
      simp only [Deque.push, if_true, List.reverse_cons, List.map_append, List.map_singleton]
      rw [deliver_put fresh hys, deliver_new fresh inside]
  · have hfull : Deque.Full (n : Int) zs := (full_iff pos hlen).2 room
    rw [spec_enqueue_full room]
    refine ⟨w, ?_, ps, zs, hq, hys⟩
    simp [listExec, LinkedQueue.lqueueEnqueueFrontExt,
      LinkedQueue.enqueueWith_full true _ hq hfull Nat.one_ne_zero]

/-- Every operation on the linked queue returns, with the answer of the specification. -/
theorem listExec_spec {w : LinkedQueue.World} (hw : ListHolds n w ys) (pos : 1 ≤ n)
    (int : n ≤ 2147483647) {op : Op} {node : Ptr × LinkedQueue.LqueueData} {b : Ptr}
    (legal : ∀ src length, op = .enqueue src length → ys.length < n →
      LinkedQueue.Legal w (.copy src (some b)) length (some node)) :
    ∃ w', listExec w node b op = some (w', (spec n ys op).1) ∧
      ListHolds n w' (spec n ys op).2 := by
  cases op with
  | enqueue src length => exact listExec_enqueue hw pos int (legal src length rfl)
  | dequeue =>
    obtain ⟨ps, zs, hq, hys⟩ := hw
    rcases List.eq_nil_or_concat' zs with rfl | ⟨zs, z, rfl⟩
    · obtain rfl : ys = [] := List.map_eq_nil_iff.1 hys.symm
      refine ⟨w, ?_, ps, [], hq, rfl⟩
      simp [listExec, LinkedQueue.dequeueBack_empty hq, spec, Op.request, Fifo.perform, report]
    · cases ys with
      | nil => simp at hys
      | cons y ys =>
        rw [List.reverse_append] at hys
        obtain ⟨hz, hzs⟩ := List.cons.inj hys
        obtain ⟨w', l, ps', hexec, -, -, hremoved, hq'⟩ := LinkedQueue.dequeueBack_last hq
        refine ⟨w', ?_, ps', zs, hq', ?_⟩
        · have hz' : deliver w'.payload z = delivered y := by rw [hremoved.payload]; exact hz
          simp [listExec, hexec, hz', spec, Op.request, Fifo.perform, report]
        · rw [hremoved.payload]
          exact hzs
  | isFull =>
    obtain ⟨ps, zs, hq, hys⟩ := hw
    refine ⟨w, ?_, ps, zs, hq, hys⟩
    have hlen := list_length_eq hys
    have hfull : LinkedQueue.lqueueIsFull w.queue = decide (ys.length = n) := by
      have hbound := hq.bounded
      rw [Bool.eq_iff_iff, hq.isFull, decide_eq_true_iff, full_iff pos hlen]
      omega
    simp only [listExec, hfull, spec, Op.request, Fifo.perform, report]
  | isEmpty =>
    obtain ⟨ps, zs, hq, hys⟩ := hw
    refine ⟨w, ?_, ps, zs, hq, hys⟩
    have hlen := list_length_eq hys
    have hempty : LinkedQueue.lqueueIsEmpty w.queue = decide (ys.length = 0) := by
      rw [Bool.eq_iff_iff, hq.isEmpty, decide_eq_true_iff, ← hlen, List.length_eq_zero_iff]
    simp only [listExec, hempty, spec, Op.request, Fifo.perform, report]

theorem list_conforms (pos : 1 ≤ n) (int : n ≤ 2147483647) :
    Run.Conforms ListStep (spec n) (·.op) (·.answer) (ListHolds n) := by
  rintro w _ w' ys hw ⟨op, -, node, b, done⟩
  rename_i answer
  have legal : ∀ src length, op = .enqueue src length → ys.length < n →
      LinkedQueue.Legal w (.copy src (some b)) length (some node) := by
    rintro src length rfl room
    obtain ⟨ps, zs, hq, hys⟩ := hw
    have hlen := list_length_eq hys
    obtain ⟨res, hres, -⟩ := Option.bind_eq_some_iff.1 done
    exact LinkedQueue.legal_of_room hq (fun hfull => (full_iff pos hlen).1 hfull room)
      Nat.one_ne_zero hres
  obtain ⟨w₁, hexec, hw₁⟩ := listExec_spec hw pos int legal
  obtain ⟨rfl, rfl⟩ := Prod.mk.inj (Option.some.inj (done.symm.trans hexec))
  exact ⟨rfl, hw₁⟩

/-! ## Both -/

/-- In these two states a further operation returns on both sides, whatever unused addresses
`malloc` answers with, and returns the same. -/
def Agree (s : ArrayState) (w : LinkedQueue.World) : Prop :=
  ∀ op : Op, op.Legal → ∀ p : Ptr, s.heap.Fresh p →
    ∀ node : Ptr × LinkedQueue.LqueueData, w.nodes.Fresh node.1 →
      ∀ b : Ptr, w.payload.Fresh b →
        ∃ s' w' answer, arrayExec s p op = some (s', answer) ∧
          listExec w node b op = some (w', answer)

theorem agree_of_holds {s : ArrayState} {w : LinkedQueue.World} (pos : 1 ≤ n)
    (int : n ≤ 2147483647) (hs : ArrayHolds n s ys) (hw : ListHolds n w ys) : Agree s w := by
  intro op legal p hp node hnode b hb
  obtain ⟨s', harray, -⟩ := arrayExec_spec hs int legal (p := p) fun _ _ _ => hp
  have hlegal : ∀ src length, op = .enqueue src length → ys.length < n →
      LinkedQueue.Legal w (.copy src (some b)) length (some node) := by
    rintro src length rfl - pdata junk ⟨⟩
    refine ⟨hnode, ?_⟩
    rintro _ _ ⟨⟩
    have inside := legal.2.2
    exact ⟨by omega, by simpa using inside, hb⟩
  obtain ⟨w', hlist, -⟩ := listExec_spec hw pos int hlegal
  exact ⟨s', w', _, harray, hlist⟩

/-- The array queue and the linked queue are interchangeable: on queues of the same positive
size the same operations get the same answers, and every further operation gets one. -/
theorem queues_interchange {n : Int} (int : InInt n) (pos : 1 ≤ n)
    {sq₀ sq : ArrayQueue.Squeue} {ok : Bool} (sinit : ArrayQueue.squeueInit sq₀ n ok = (sq, 0))
    {lq₀ lq : LinkedQueue.Lqueue} {pqueue : Ptr}
    (linit : LinkedQueue.lqueueInit lq₀ pqueue n = (lq, 0))
    {heap payload : Heap (List UInt8)} {nodes : Heap LinkedQueue.LqueueData}
    {es fs : List Event} {s : ArrayState} {w : LinkedQueue.World}
    (arun : Run ArrayStep ⟨sq, heap⟩ es s) (lrun : Run ListStep ⟨lq, nodes, payload⟩ fs w)
    (same : es.map (·.op) = fs.map (·.op)) : es = fs ∧ Agree s w := by
  obtain ⟨k, rfl⟩ : ∃ k : Nat, n = k := ⟨n.toNat, by omega⟩
  have hpos : 1 ≤ k := by omega
  have hint : k ≤ 2147483647 := by have := int.2; omega
  have ainit : ArrayHolds k ⟨sq, heap⟩ [] := by
    obtain ⟨-, hsq⟩ := ArrayQueue.holds_init sinit
    rw [Int.toNat_natCast] at hsq
    exact ⟨[], hsq, rfl⟩
  have winit : ListHolds k ⟨lq, nodes, payload⟩ [] :=
    ⟨[], [], LinkedQueue.holds_init nodes payload linit, rfl⟩
  obtain ⟨hes, hs⟩ := Run.conform (array_conforms hint) ainit arun
  obtain ⟨hfs, hw⟩ := Run.conform (list_conforms hpos hint) winit lrun
  rw [same] at hes hs
  refine ⟨?_, agree_of_holds hpos hint hs hw⟩
  apply Run.history_ext (fun d e hop hanswer => ?_) same (hes.trans hfs.symm)
  cases d
  cases e
  rw [Event.mk.injEq]
  exact ⟨hop, hanswer⟩

/-- On queues with one place the second enqueue is refused and the first one is delivered. -/
theorem queues_interchange_one_place : ∃ (es fs : List Event) (s : ArrayState)
    (w : LinkedQueue.World), es.map (·.answer) =
      [.code 0, .code (-1), .truth true, .item 0 (some (some [65, 66], 2))] ∧
      es = fs ∧ Agree s w := by
  let sq : ArrayQueue.Squeue := ⟨0, 0, 0, 1, some [⟨0, 0⟩]⟩
  let lq : LinkedQueue.Lqueue := ⟨0, 1, 0⟩
  have sinit : ArrayQueue.squeueInit ⟨5, 5, 5, 5, none⟩ 1 true = (sq, 0) := by decide
  have linit : LinkedQueue.lqueueInit ⟨7, 7, 7⟩ 1 1 = (lq, 0) := by decide
  have legal : (Op.enqueue [65, 66] 2).Legal := by unfold Op.Legal; decide
  have astart : Run ArrayStep ⟨sq, .empty⟩ [] ⟨sq, .empty⟩ := .nil
  have arun := (((astart.snoc
    (.call (.enqueue [65, 66] 2) legal 7 rfl)).snoc
    (.call (.enqueue [65, 66] 2) legal 8 rfl)).snoc
    (.call .isFull trivial 0 rfl)).snoc
    (.call .dequeue trivial 0 rfl)
  have lstart : Run ListStep ⟨lq, .empty, .empty⟩ [] ⟨lq, .empty, .empty⟩ := .nil
  have lrun := (((lstart.snoc
    (.call (.enqueue [65, 66] 2) legal (10, ⟨1, 2, 3, 4⟩) 5 rfl)).snoc
    (.call (.enqueue [65, 66] 2) legal (20, ⟨1, 2, 3, 4⟩) 6 rfl)).snoc
    (.call .isFull trivial (0, ⟨0, 0, 0, 0⟩) 0 rfl)).snoc
    (.call .dequeue trivial (0, ⟨0, 0, 0, 0⟩) 0 rfl)
  have h := queues_interchange (by decide) (by decide) sinit linit arun lrun rfl
  refine ⟨_, _, _, _, ?_, h⟩
  rfl

end CFunction.Interchange
