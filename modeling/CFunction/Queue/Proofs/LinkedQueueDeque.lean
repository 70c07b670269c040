import CFunction.Queue.Proofs.LinkedQueueRing
import CFunction.Misc.Deque

/-!
# The linked queue is a double-ended queue

`Holds` says that the nodes `ps` form a ring with `phead` as its head and carry the items `xs`.
Every call keeps this relation and is a step of the abstract double-ended queue.
-/

namespace CFunction.LinkedQueue
open LinkRing

structure Holds (size : Int) (w : World) (ps : List Ptr) (xs : List (Ptr × Int)) : Prop where
  size_eq : w.queue.size = size
  count_eq : w.queue.count = xs.length
  bounded : 0 < size → (xs.length : Int) ≤ size
  small : (xs.length : Int) ≤ 2147483647
  head : w.queue.phead = ps.headD 0
  live : ∀ p ∈ ps, w.nodes.Live p
  items : ps.map (itemOf w.nodes) = xs
  ring : IsRing (nextOf w.nodes) (prevOf w.nodes) ps

variable {size : Int} {w w' : World} {ps : List Ptr} {xs : List (Ptr × Int)}

theorem holds_init {q₀ q : Lqueue} {pqueue : Ptr} (nodes : Heap LqueueData)
    (payload : Heap (List UInt8)) (init : lqueueInit q₀ pqueue size = (q, 0)) :
    Holds size ⟨q, nodes, payload⟩ [] [] := by
  unfold lqueueInit at init
  split at init
  · simp at init
  · obtain ⟨rfl, -⟩ := Prod.mk.inj init
    exact ⟨rfl, rfl, fun h => Int.le_of_lt h, by simp, rfl, by simp, rfl, isRing_nil⟩

theorem Holds.length_eq (hw : Holds size w ps xs) : ps.length = xs.length := by
  rw [← hw.items, List.length_map]

/-- `phead` is `NULL` exactly for the empty queue. -/
theorem Holds.phead_null (hw : Holds size w ps xs) : w.queue.phead = 0 ↔ xs = [] := by
  have hlen := hw.length_eq
  cases ps with
  | nil => simp only [hw.head, List.headD_nil, true_iff]; exact List.length_eq_zero_iff.1 hlen.symm
  | cons h t =>
    have hne : h ≠ 0 := (hw.live h List.mem_cons_self).ne_null
    have hxs : xs ≠ [] := by rintro rfl; simp at hlen
    simp [hw.head, hne, hxs]

theorem Holds.isFull (hw : Holds size w ps xs) :
    lqueueIsFull w.queue = true ↔ Deque.Full size xs := by
  simp [lqueueIsFull, Deque.Full, hw.size_eq, hw.count_eq]

theorem Holds.isEmpty (hw : Holds size w ps xs) : lqueueIsEmpty w.queue = true ↔ xs = [] := by
  simp [lqueueIsEmpty, hw.phead_null]

/-! ## Enqueueing -/

/-- `malloc` answers with unused addresses and the caller's buffer is as long as it says. -/
def Legal (w : World) (from' : Payload) (length : Int) (m : Option (Ptr × LqueueData)) : Prop :=
  ∀ pdata junk, m = some (pdata, junk) → w.nodes.Fresh pdata ∧
    ∀ src b, from' = .copy src (some b) →
      0 ≤ length ∧ length.toNat ≤ src.length ∧ w.payload.Fresh b

/-- The node and the item of an enqueue whose allocations succeed. -/
def allocated (from' : Payload) (pbuf : Ptr) (length : Int) (m : Option (Ptr × LqueueData)) :
    Option (Ptr × Ptr × Int) :=
  match m, from' with
  | some (pdata, _), .keep => some (pdata, pbuf, length)
  | some (pdata, _), .copy _ (some b) => some (pdata, b, length)
  | _, _ => none

/-- Attaching a node that has just been allocated. -/
theorem attachNode_spec (front : Bool) (hw : Holds size w ps xs) (room : ¬ Deque.Full size xs)
    {pdata : Ptr} (fresh : w.nodes.Fresh pdata) (junk : LqueueData)
    (payload : Heap (List UInt8)) (pqdata : Ptr) (length : Int) :
    ∃ w', attachNode front w (w.nodes.put pdata junk fresh.1) payload pdata pqdata length =
        some (w', 0) ∧
      (w.queue.count < 2147483647 →
        Holds size w' (Deque.push front pdata ps) (Deque.push front (pqdata, length) xs)) := by
  have hnew : pdata ∉ ps := fun h => (hw.live _ h).ne_fresh fresh rfl
  let n1 := (w.nodes.put pdata junk fresh.1).adjust pdata fun d => { d with pqdata := pqdata }
  let n2 := n1.adjust pdata fun d => { d with len := length }
  have hp1 : Heap.modify _ pdata (fun d => { d with pqdata := pqdata }) = some n1 :=
    Heap.modify_eq (by simp)
  have hp2 : n1.modify pdata (fun d => { d with len := length }) = some n2 :=
    Heap.modify_eq (by simp [n1])
  -- the other nodes are as before
  have hold : ∀ r, r ≠ pdata → n2.block r = w.nodes.block r := by
    intro r hr; simp [n1, n2, hr]
  have hsame : ∀ r ∈ ps, n2.block r = w.nodes.block r :=
    fun r hr => hold r fun e => hnew (e ▸ hr)
  have hring : IsRing (nextOf n2) (prevOf n2) ps := by
    apply hw.ring.congr
    intro r hr
    simp only [nextOf, prevOf, hsame r hr, and_self]
  have hlive : ∀ r ∈ ps, n2.Live r := by
    intro r hr
    simp only [Heap.Live, hsame r hr]
    exact hw.live r hr
  obtain ⟨nodes', hins, hrel, hring'⟩ :=
    insertNode_spec front hring hlive hw.head (show n2.Live pdata by simp [n1, n2]) hnew
  refine ⟨⟨{ w.queue with
    count := toInt32 (w.queue.count + 1)
    phead := if front ∨ ps = [] then pdata else w.queue.phead }, nodes', payload⟩, ?_, fun few =>
      ?_⟩
  · simp only [attachNode, hp1, hp2, hins, Option.bind_eq_bind, Option.bind_some]
  · have hitem : itemOf nodes' pdata = (pqdata, length) := by
      rw [hrel.item]; simp [itemOf, n1, n2]
    have hitems : ps.map (itemOf nodes') = xs := by
      rw [← hw.items]
      apply List.map_congr_left
      intro r hr
      rw [hrel.item]; simp only [itemOf, hsame r hr]
    have hcount := hw.count_eq
    have hnext : toInt32 (w.queue.count + 1) = (Deque.push front (pqdata, length) xs).length := by
      apply toInt32_eq_nat
      · rw [Deque.push_length, hcount]
        rfl
      · rw [Deque.push_length]
        omega
    have hsmall : ((Deque.push front (pqdata, length) xs).length : Int) ≤ 2147483647 := by
      rw [Deque.push_length]
      omega
    have hhead : (if front ∨ ps = [] then pdata else w.queue.phead) =
        (Deque.push front pdata ps).headD 0 := by
      rw [Deque.push_headD, hw.head]
    refine ⟨hw.size_eq, hnext, Deque.push_le_size room front _, hsmall, hhead, ?_, ?_, ?_⟩
    · intro r hr
      rw [hrel.live]
      rcases Deque.mem_push.1 hr with rfl | hr
      · simp [n1, n2]
      · exact hlive r hr
    · rw [Deque.map_push, hitem, hitems]
    · cases front
      · exact isRing_rotate.1 hring'
      · exact hring'

theorem enqueueWith_full (front : Bool) (from' : Payload) (hw : Holds size w ps xs)
    (full : Deque.Full size xs) {pbuf : Ptr} (hbuf : pbuf ≠ 0) (length : Int)
    (m : Option (Ptr × LqueueData)) : enqueueWith front from' w 1 pbuf length m = some (w, -1) := by
  have hfull : w.queue.size > 0 ∧ w.queue.count ≥ w.queue.size := by
    rw [hw.size_eq, hw.count_eq]; exact full
  simp only [enqueueWith, Nat.one_ne_zero, hbuf, or_self, if_false, if_pos hfull]

/-- Below the limit an enqueue stores its item, or gives up without a trace when an allocation
fails. -/
theorem enqueueWith_room (front : Bool) (from' : Payload) (hw : Holds size w ps xs)
    (room : ¬ Deque.Full size xs) {pbuf : Ptr} (hbuf : pbuf ≠ 0) {length : Int}
    {m : Option (Ptr × LqueueData)} (legal : Legal w from' length m) :
    match allocated from' pbuf length m with
    | none => enqueueWith front from' w 1 pbuf length m = some (w, -10)
    | some (pdata, item) => ∃ w', enqueueWith front from' w 1 pbuf length m = some (w', 0) ∧
        (w.queue.count < 2147483647 →
          Holds size w' (Deque.push front pdata ps) (Deque.push front item xs)) := by
  have hroom : ¬ (w.queue.size > 0 ∧ w.queue.count ≥ w.queue.size) := by
    rw [hw.size_eq, hw.count_eq]; exact room
  simp only [enqueueWith, Nat.one_ne_zero, hbuf, or_self, if_false, if_neg hroom]
  cases m with
  | none => simp [allocated]
  | some node =>
    obtain ⟨pdata, junk⟩ := node
    obtain ⟨fresh, hcopy⟩ := legal pdata junk rfl
    have hmalloc := Heap.malloc_eq (a := junk) fresh
    cases from' with
    | keep =>
      obtain ⟨w', hw', hholds⟩ := attachNode_spec front hw room fresh junk w.payload pbuf length
      exact ⟨w', by simpa [hmalloc] using hw', hholds⟩
    | copy src m' =>
      cases m' with
      | none =>
        have hfree : (w.nodes.put pdata junk fresh.1).free pdata = some w.nodes := by
          rw [Heap.free_eq (by simp), Heap.erase_put fresh]
        simp [allocated, hmalloc, hfree]
      | some b =>
        obtain ⟨h0, hlen, hb⟩ := hcopy src b rfl
        obtain ⟨w', hw', hholds⟩ := attachNode_spec front hw room fresh junk
          (w.payload.put b (src.take length.toNat) hb.1) b length
        have hpay : copyPayload w.payload b src length =
            some (w.payload.put b (src.take length.toNat) hb.1) := by
          rw [copyPayload, if_pos ⟨h0, hlen⟩, Heap.malloc_eq hb]
        exact ⟨w', by simpa [hmalloc, hpay] using hw', hholds⟩

/-- What an enqueue did not reject, it found legal. -/
theorem legal_of_room {front : Bool} {from' : Payload} (hw : Holds size w ps xs)
    (room : ¬ Deque.Full size xs) {pbuf : Ptr} (hbuf : pbuf ≠ 0) {length : Int}
    {m : Option (Ptr × LqueueData)} {res : World × Int}
    (done : enqueueWith front from' w 1 pbuf length m = some res) : Legal w from' length m := by
  have hroom : ¬ (w.queue.size > 0 ∧ w.queue.count ≥ w.queue.size) := by
    rw [hw.size_eq, hw.count_eq]; exact room
  simp only [enqueueWith, Nat.one_ne_zero, hbuf, or_self, if_false, if_neg hroom] at done
  rintro pdata junk rfl
  have fresh : w.nodes.Fresh pdata := by
    by_contra h
    simp [Heap.malloc, h] at done
  refine ⟨fresh, ?_⟩
  rintro src b rfl
  simp only [Heap.malloc_eq fresh, Option.bind_eq_bind, Option.bind_some] at done
  by_cases hlen : 0 ≤ length ∧ length.toNat ≤ src.length
  · refine ⟨hlen.1, hlen.2, ?_⟩
    by_contra h
    simp [copyPayload, hlen, Heap.malloc, h] at done
  · rw [copyPayload, if_neg hlen] at done
    simp at done

/-! ## Dequeueing -/

theorem dequeueBack_empty (hw : Holds size w ps []) :
    lqueueDequeueBack w 1 1 1 = some (w, -1, none) := by
  have hnull : w.queue.phead = 0 := hw.phead_null.2 rfl
  simp [lqueueDequeueBack, hnull]

/-- The node `l` is gone and nothing else. -/
structure Removed (w w' : World) (l : Ptr) : Prop where
  was : w.nodes.Live l
  live : ∀ r, w'.nodes.Live r ↔ r ≠ l ∧ w.nodes.Live r
  payload : w'.payload = w.payload

/-- A dequeue hands out the last item and frees the last node. -/
theorem dequeueBack_last {x : Ptr × Int} (hw : Holds size w ps (xs ++ [x])) :
    ∃ w' l ps', lqueueDequeueBack w 1 1 1 = some (w', 0, some x) ∧ ps = ps' ++ [l] ∧
      itemOf w.nodes l = x ∧ Removed w w' l ∧ Holds size w' ps' xs := by
  rcases List.eq_nil_or_concat' ps with rfl | ⟨ps', l, rfl⟩
  · have := hw.length_eq; simp at this
  have hnull : ¬ w.queue.phead = 0 := by rw [hw.phead_null]; simp
  have hitems := hw.items
  rw [List.map_append, List.map_singleton] at hitems
  obtain ⟨hinit, hlast⟩ := List.append_inj' hitems rfl
  have hitem : itemOf w.nodes l = x := List.singleton_inj.1 hlast
  have hl : w.nodes.Live l := hw.live l (by simp)
  obtain ⟨nodes', hunlink, hrel, hring⟩ := unlinkBack_spec hw.ring hw.live hw.head
  have hl' : nodes'.Live l := (hrel.live l).2 hl
  obtain ⟨d, hd, -, -, hdx⟩ := load_of_live hl'
  rw [hrel.item, hitem] at hdx
  have hoff : l ∉ ps' := by
    intro h
    have := hw.ring.nodup
    rw [List.nodup_append] at this
    exact this.2.2 l h l (by simp) rfl
  refine ⟨⟨{ w.queue with
    count := toInt32 (w.queue.count - 1)
    phead := ps'.headD 0 }, nodes'.erase l, w.payload⟩, l, ps', ?_, rfl, hitem, ⟨hl, ?_, rfl⟩, ?_⟩
  · simp only [lqueueDequeueBack, Nat.one_ne_zero, or_self, if_false, if_neg hnull, hunlink, hd,
      Heap.free_eq hl', Option.bind_eq_bind, Option.bind_some, hdx]
  · intro r
    simp [hrel.live]
  · have hcount := hw.count_eq
    have hbound := hw.bounded
    have few := hw.small
    simp only [List.length_append, List.length_cons, List.length_nil] at hcount few hbound
    refine ⟨hw.size_eq, ?_, fun hs => ?_, by omega, rfl, ?_, ?_, erase_ring hring hoff⟩
    · show toInt32 (w.queue.count - 1) = _
      rw [hcount, toInt32_of_inInt (by unfold InInt; omega)]; omega
    · have := hbound hs; omega
    · intro r hr
      have hne : r ≠ l := fun e => hoff (e ▸ hr)
      have := hw.live r (List.mem_append_left _ hr)
      simp [hne, hrel.live, this]
    · rw [← hinit]
      apply List.map_congr_left
      intro r hr
      have hne : r ≠ l := fun e => hoff (e ▸ hr)
      rw [← hrel.item]
      simp [itemOf, hne]

/-! ## Runs -/

/-- The abstract operation that a call with its results amounts to. -/
def Event.op (e : Event) : Option (Deque.Op (Ptr × Int)) :=
  match e.call with
  | .enqueue front from' pbuf length m =>
    if e.ret = 0 then (allocated from' pbuf length m).map fun (_, item) => .pushed front item
    else if e.ret = -1 then some .refused
    else some .noMemory
  | .dequeueBack => some (e.out.elim .empty .popped)

theorem exec_enqueue (front : Bool) (from' : Payload) (pbuf : Ptr) (length : Int)
    (m : Option (Ptr × LqueueData)) :
    (Call.enqueue front from' pbuf length m).exec w =
      (enqueueWith front from' w 1 pbuf length m).map fun (w, ret) => (w, ret, none) := by
  cases front <;> cases from' <;> rfl

/-- Every call is a step of the abstract double-ended queue. -/
theorem step_simulates :
    Run.Simulates Step (Deque.Step size) Event.op fun w xs => ∃ ps, Holds size w ps xs := by
  rintro w e w' xs ⟨ps, hw⟩ ⟨nonNull, few, done⟩
  rename_i c ret out
  cases c with
  | enqueue front from' pbuf length m =>
    have hbuf := nonNull _ _ _ _ _ rfl
    rw [exec_enqueue] at done
    obtain ⟨⟨w₁, ret₁⟩, hexec, heq⟩ := Option.map_eq_some_iff.1 done
    obtain ⟨rfl, rfl, rfl⟩ : w₁ = w' ∧ ret₁ = ret ∧ none = out := by simpa using heq
    by_cases full : Deque.Full size xs
    · rw [enqueueWith_full front from' hw full hbuf] at hexec
      obtain ⟨rfl, rfl⟩ := Prod.mk.inj (Option.some.inj hexec)
      exact ⟨xs, .refused full, ps, hw⟩
    · have hspec := enqueueWith_room front from' hw full hbuf (legal_of_room hw full hbuf hexec)
      cases halloc : allocated from' pbuf length m with
      | none =>
        rw [halloc, hexec] at hspec
        obtain ⟨rfl, rfl⟩ := Prod.mk.inj (Option.some.inj hspec)
        exact ⟨xs, .noMemory full, ps, hw⟩
      | some node =>
        rw [halloc] at hspec
        obtain ⟨w₂, hexec₂, hholds⟩ := hspec
        obtain ⟨rfl, rfl⟩ := Prod.mk.inj (Option.some.inj (hexec.symm.trans hexec₂))
        simp only [Event.op, if_true, halloc, Option.map_some]
        exact ⟨_, .pushed front node.2 full, _, hholds (few (by simp) rfl)⟩
  | dequeueBack =>
    change lqueueDequeueBack w 1 1 1 = some (w', ret, out) at done
    rcases List.eq_nil_or_concat' xs with rfl | ⟨ys, x, rfl⟩
    · rw [dequeueBack_empty hw] at done
      obtain ⟨rfl, rfl, rfl⟩ : w = w' ∧ -1 = ret ∧ none = out := by simpa using done
      exact ⟨[], .empty, ps, hw⟩
    · obtain ⟨w₁, l, ps', hexec, -, -, -, hholds⟩ := dequeueBack_last hw
      rw [hexec] at done
      obtain ⟨rfl, rfl, rfl⟩ : w₁ = w' ∧ 0 = ret ∧ some x = out := by simpa using done
      exact ⟨ys, .popped x, ps', hholds⟩

/-- The queue holds the items `xs`, front first. -/
structure IsDeque (size : Int) (w : World) (xs : List (Ptr × Int)) : Prop where
  size_eq : w.queue.size = size
  count_eq : w.queue.count = xs.length
  bounded : 0 < size → (xs.length : Int) ≤ size
  phead_null : w.queue.phead = 0 ↔ xs = []
  /-- `next` visits distinct live nodes carrying `xs` and returns, `prev` goes back. -/
  visits : ∃ ps : List Ptr, ps.Nodup ∧ (∀ p ∈ ps, w.nodes.Live p) ∧ ps.map (itemOf w.nodes) = xs ∧
    (∀ i (hi : i < ps.length), (nextOf w.nodes)^[i] w.queue.phead = ps[i]) ∧
    (nextOf w.nodes)^[xs.length] w.queue.phead = w.queue.phead ∧
    ∀ p ∈ ps, prevOf w.nodes (nextOf w.nodes p) = p ∧ nextOf w.nodes (prevOf w.nodes p) = p

theorem Holds.isDeque (hw : Holds size w ps xs) : IsDeque size w xs := by
  refine ⟨hw.size_eq, hw.count_eq, hw.bounded, hw.phead_null, ps, hw.ring.nodup, hw.live,
    hw.items, ?_, ?_, fun p hp => hw.ring.inverse hp⟩
  · cases ps with
    | nil => intro i hi; simp at hi
    | cons h t => rw [hw.head]; exact hw.ring.iterate.1
  · rw [← hw.length_eq, hw.head]
    cases ps with
    | nil => rfl
    | cons h t => exact hw.ring.iterate.2

/-- A call that the property speaks about: its arguments are not `NULL`, and `malloc` and the
caller's buffer are as they have to be. -/
def Call.Legal (w : World) : Call → Prop
  | .enqueue _ from' pbuf length m => pbuf ≠ 0 ∧ LinkedQueue.Legal w from' length m
  | .dequeueBack => True

/-- What a call does to a queue holding `xs`. A call that returns something other than zero
leaves all memory as it was. -/
def Outcome (size : Int) (w : World) (xs : List (Ptr × Int)) (c : Call) (w' : World) (ret : Int)
    (out : Option (Ptr × Int)) : Prop :=
  match c with
  | .enqueue front from' pbuf length m =>
    if lqueueIsFull w.queue then ret = -1 ∧ w' = w
    else match allocated from' pbuf length m with
    | none => ret = -10 ∧ w' = w
    | some (_, item) =>
      ret = 0 ∧ (w.queue.count < 2147483647 → IsDeque size w' (Deque.push front item xs))
  | .dequeueBack =>
    if lqueueIsEmpty w.queue then ret = -1 ∧ w' = w
    else ret = 0 ∧ ∃ ys x l, xs = ys ++ [x] ∧ out = some x ∧ itemOf w.nodes l = x ∧
      Removed w w' l ∧ IsDeque size w' ys

/-- Every call returns, with the outcome it should have. -/
theorem exec_outcome (hw : Holds size w ps xs) {c : Call} (legal : c.Legal w) :
    ∃ w' ret out, c.exec w = some (w', ret, out) ∧ Outcome size w xs c w' ret out := by
  cases c with
  | enqueue front from' pbuf length m =>
    obtain ⟨hbuf, hlegal⟩ := legal
    simp only [exec_enqueue, Outcome]
    by_cases full : Deque.Full size xs
    · refine ⟨w, -1, none, by rw [enqueueWith_full front from' hw full hbuf]; rfl, ?_⟩
      rw [if_pos (hw.isFull.2 full)]
      exact ⟨rfl, rfl⟩
    · have hfull : ¬ lqueueIsFull w.queue = true := fun h => full (hw.isFull.1 h)
      simp only [if_neg hfull]
      have hspec := enqueueWith_room front from' hw full hbuf hlegal
      cases halloc : allocated from' pbuf length m with
      | none =>
        rw [halloc] at hspec
        exact ⟨w, -10, none, by rw [hspec]; rfl, rfl, rfl⟩
      | some node =>
        rw [halloc] at hspec
        obtain ⟨w', hexec, hholds⟩ := hspec
        exact ⟨w', 0, none, by rw [hexec]; rfl, rfl, fun few => (hholds few).isDeque⟩
  | dequeueBack =>
    simp only [Outcome]
    rcases List.eq_nil_or_concat' xs with rfl | ⟨ys, x, rfl⟩
    · refine ⟨w, -1, none, dequeueBack_empty hw, ?_⟩
      rw [if_pos (hw.isEmpty.2 rfl)]
      exact ⟨rfl, rfl⟩
    · obtain ⟨w', l, ps', hexec, -, hitem, hremoved, hholds⟩ := dequeueBack_last hw
      refine ⟨w', 0, some x, hexec, ?_⟩
      rw [if_neg (fun h => by simpa using hw.isEmpty.1 h)]
      exact ⟨rfl, ys, x, l, rfl, rfl, hitem, hremoved, hholds.isDeque⟩

/-- The linked queue refines a double-ended queue: after any run of calls on an initialised
queue there is a list `xs`, which the abstract double-ended queue reaches by the same
operations and results, whose items the ring of nodes carries, and on which every further call
has the abstract outcome. -/
theorem lqueue_run_isDeque {q₀ q : Lqueue} {size : Int} {pqueue : Ptr}
    {nodes : Heap LqueueData} {payload : Heap (List UInt8)} {es : List Event} {w : World}
    (init : lqueueInit q₀ pqueue size = (q, 0)) (run : Run Step ⟨q, nodes, payload⟩ es w) :
    ∃ xs, Run (Deque.Step size) [] (es.filterMap Event.op) xs ∧ IsDeque size w xs ∧
      ∀ c : Call, c.Legal w →
        ∃ w' ret out, c.exec w = some (w', ret, out) ∧ Outcome size w xs c w' ret out := by
  obtain ⟨xs, hrun, ps, hw⟩ := run.simulate step_simulates ⟨[], holds_init nodes payload init⟩
  exact ⟨xs, hrun, hw.isDeque, fun c => exec_outcome hw⟩

/-- Both ends of a queue with two places, and a third enqueue that is refused. -/
theorem lqueue_run_isDeque_two_places : ∃ (es : List Event) (w : World) (xs : List (Ptr × Int)),
    es.map (·.ret) = [0, 0, -1, 0] ∧ Run (Deque.Step 2) [] (es.filterMap Event.op) xs ∧
      IsDeque 2 w xs := by
  let q : Lqueue := ⟨0, 2, 0⟩
  have init : lqueueInit ⟨7, 7, 7⟩ 1 2 = (q, 0) := by decide
  have start : Run Step ⟨q, .empty, .empty⟩ [] ⟨q, .empty, .empty⟩ := .nil
  have first := start.snoc (Step.call (c := .enqueue true (.copy [65, 0] (some 5)) 1 2
    (some (10, ⟨1, 2, 3, 4⟩))) (by rintro _ _ _ _ _ ⟨⟩; decide) (fun _ _ => by decide) rfl)
  have second := first.snoc (Step.call (c := .enqueue false .keep 9 3
    (some (20, ⟨4, 3, 2, 1⟩))) (by rintro _ _ _ _ _ ⟨⟩; decide) (fun _ _ => by decide) rfl)
  have third := second.snoc (Step.call (c := .enqueue false .keep 9 3 none)
    (by rintro _ _ _ _ _ ⟨⟩; decide) (fun _ h => absurd h (by decide)) rfl)
  have run := third.snoc (Step.call (c := .dequeueBack) (by rintro _ _ _ _ _ ⟨⟩)
    (fun h => absurd rfl h) rfl)
  obtain ⟨xs, hrun, hxs, -⟩ := lqueue_run_isDeque init run
  exact ⟨_, _, xs, rfl, hrun, hxs⟩

end CFunction.LinkedQueue
