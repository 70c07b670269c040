import CFunction.Misc.Runs
import CFunction.Misc.CInt
import CFunction.Misc.Heap

/-!
# The array queue

`queue/array/queue.c`. The slots are the list behind `qdata`, `none` standing for `NULL`; an
access through `NULL` or outside the slots has no result. Between `pthread_mutex_lock` and
`pthread_mutex_unlock` a thread runs one `CriticalSection`; what a call does before it takes
the lock (only `squeue_enqueue_ext` does anything: it copies the caller's bytes) is its
`enter`. `System` puts any number of threads around one queue.
-/

namespace CFunction.ArrayQueue

/-- `squeue_data_t` (`queue.h:11-15`). -/
structure SqueueData where
  pdata : Ptr
  length : Nat
deriving DecidableEq, Repr

/-- What `calloc` and `_squeue_dequeue` leave in an unused slot. -/
def SqueueData.zero : SqueueData := ⟨0, 0⟩

/-- `squeue_t` (`queue.h:18-26`). The mutex is not part of the value: a critical section is
one step of `System`. -/
structure Squeue where
  head : Int
  tail : Int
  count : Int
  size : Int
  qdata : Option (List SqueueData)
deriving DecidableEq, Repr

/-- `qdata[i]` as a value. -/
def Squeue.load (q : Squeue) (i : Int) : Option SqueueData := do
  let slots ← q.qdata
  if 0 ≤ i then slots[i.toNat]? else none

/-- `qdata[i] = d`. -/
def Squeue.store (q : Squeue) (i : Int) (d : SqueueData) : Option Squeue := do
  let slots ← q.qdata
  if 0 ≤ i ∧ i.toNat < slots.length then
    some { q with qdata := some (slots.set i.toNat d) }
  else none

/-- `squeue_init` (`queue.c:24-43`). `calloc` gives zeroed slots unless the size is negative
(a request beyond the address space) or memory has run out (`ok = false`). -/
def squeueInit (q : Squeue) (size : Int) (ok : Bool) : Squeue × Int :=
  if 0 ≤ size ∧ ok then
    ({ head := 0, tail := 0, count := 0, size := size,
       qdata := some (List.replicate size.toNat .zero) }, 0)
  else ({ q with qdata := none }, -10)

/-- The critical section of both enqueue functions (`queue.c:81-95` and `queue.c:100-114`). -/
def enqueueLocked (q : Squeue) (data : SqueueData) : Option (Squeue × Int) :=
  if q.count < q.size then do
    let q ← q.store q.tail data
    let tail ← intMod (toInt32 (q.tail + 1)) q.size
    let q := { q with tail := tail }
    let q := { q with count := toInt32 (q.count + 1) }
    some (q, 0)
  else some (q, -1)

/-- `_squeue_dequeue` (`queue.c:117-133`); the item is what is written to `*pdata`. -/
def dequeueLocked (q : Squeue) : Option (Squeue × Int × Option SqueueData) :=
  if q.count > 0 then do
    let data ← q.load q.head
    let q ← q.store q.head { data with pdata := 0 }
    let slot ← q.load q.head
    let q ← q.store q.head { slot with length := 0 }
    let head ← intMod (toInt32 (q.head + 1)) q.size
    let q := { q with head := head }
    let q := { q with count := toInt32 (q.count - 1) }
    some (q, 0, some data)
  else some (q, -1, none)

/-- The heap of payload buffers. -/
abbrev Payloads := Heap (List UInt8)

/-- `squeue_enqueue_ext` before its lock (`queue.c:70-79`): `malloc(length)` answers `m`, and
`length` bytes of the caller's `src` are copied. `inr` is an early return. -/
def enqueueExtCopy (heap : Payloads) (src : List UInt8) (length : Nat) (m : Option Ptr) :
    Option (Payloads × (SqueueData ⊕ Int)) :=
  match m with
  | none => some (heap, .inr (-10))
  | some p =>
    if length ≤ src.length then do
      let heap ← heap.malloc p (src.take length)
      some (heap, .inl ⟨p, length⟩)
    else none

/-- `squeue_enqueue` (`queue.c:98-115`). -/
def squeueEnqueue (q : Squeue) (data : SqueueData) : Option (Squeue × Int) :=
  enqueueLocked q data

/-- `squeue_enqueue_ext` (`queue.c:68-96`). -/
def squeueEnqueueExt (heap : Payloads) (q : Squeue) (src : List UInt8) (length : Nat)
    (m : Option Ptr) : Option (Payloads × Squeue × Int) := do
  match ← enqueueExtCopy heap src length m with
  | (heap, .inr ret) => some (heap, q, ret)
  | (heap, .inl data) => do
    let (q, ret) ← enqueueLocked q data
    some (heap, q, ret)

/-- `squeue_dequeue` (`queue.c:134-142`). -/
def squeueDequeue (q : Squeue) : Option (Squeue × Int × Option SqueueData) := dequeueLocked q

/-- `squeue_is_full` (`queue.c:166-175`). -/
def squeueIsFull (q : Squeue) : Bool := q.count = q.size

/-- `squeue_is_empty` (`queue.c:177-186`). -/
def squeueIsEmpty (q : Squeue) : Bool := q.count = 0

/-! ## Threads -/

/-- A call with its arguments. -/
inductive Call
  | enqueue (data : SqueueData)
  | enqueueExt (src : List UInt8) (length : Nat)
  | dequeue
  | isFull
  | isEmpty

/-- What a thread does between taking and releasing the mutex. -/
inductive CriticalSection
  | enqueue (data : SqueueData)
  | dequeue
  | isFull
  | isEmpty

/-- What a call returns; `taken` also gives what was written to `*pdata`. -/
inductive Result
  | code (ret : Int)
  | taken (ret : Int) (out : Option SqueueData)
  | answer (b : Bool)
deriving DecidableEq, Repr

/-- A call up to its lock: the section it goes on to execute, or the code it returns with. -/
def Call.enter (heap : Payloads) (m : Option Ptr) :
    Call → Option (Payloads × (CriticalSection ⊕ Int))
  | .enqueue data => some (heap, .inl (.enqueue data))
  | .enqueueExt src length => do
    match ← enqueueExtCopy heap src length m with
    | (heap, .inr ret) => some (heap, .inr ret)
    | (heap, .inl data) => some (heap, .inl (.enqueue data))
  | .dequeue => some (heap, .inl .dequeue)
  | .isFull => some (heap, .inl .isFull)
  | .isEmpty => some (heap, .inl .isEmpty)

def CriticalSection.exec (q : Squeue) : CriticalSection → Option (Squeue × Result)
  | .enqueue data => (squeueEnqueue q data).map fun (q, ret) => (q, .code ret)
  | .dequeue => (squeueDequeue q).map fun (q, ret, out) => (q, .taken ret out)
  | .isFull => some (q, .answer (squeueIsFull q))
  | .isEmpty => some (q, .answer (squeueIsEmpty q))

/-- One queue shared by threads. `waiting t` is the section thread `t` is about to execute. -/
structure System where
  queue : Squeue
  heap : Payloads
  waiting : Nat → Option CriticalSection

/-- A queue just initialised; no thread is inside a call. -/
def System.start (q : Squeue) (heap : Payloads) : System := ⟨q, heap, fun _ => none⟩

inductive Event
  /-- Thread `t` calls `c` and arrives at the lock; `m` is what its `malloc` answers. -/
  | enter (t : Nat) (c : Call) (m : Option Ptr)
  /-- Thread `t` calls `c` and returns `ret` before the lock. -/
  | reject (t : Nat) (c : Call) (m : Option Ptr) (ret : Int)
  /-- Thread `t` executes its critical section and returns `r`. -/
  | locked (t : Nat) (cs : CriticalSection) (r : Result)

inductive Step : System → Event → System → Prop
  | enter {s : System} {t : Nat} {c : Call} {m : Option Ptr} {heap : Payloads}
      {cs : CriticalSection} (idle : s.waiting t = none)
      (copied : c.enter s.heap m = some (heap, .inl cs)) :
      Step s (.enter t c m)
        { s with heap := heap, waiting := Function.update s.waiting t (some cs) }
  | reject {s : System} {t : Nat} {c : Call} {m : Option Ptr} {heap : Payloads} {ret : Int}
      (idle : s.waiting t = none) (rejected : c.enter s.heap m = some (heap, .inr ret)) :
      Step s (.reject t c m ret) { s with heap := heap }
  | locked {s : System} {t : Nat} {cs : CriticalSection} {q : Squeue} {r : Result}
      (ready : s.waiting t = some cs) (done : cs.exec s.queue = some (q, r)) :
      Step s (.locked t cs r)
        { s with queue := q, waiting := Function.update s.waiting t none }

/-- The items enqueued by a history, oldest first. -/
def enqueued (es : List Event) : List SqueueData :=
  es.filterMap fun
    | .locked _ (.enqueue data) (.code 0) => some data
    | _ => none

/-- The items dequeued by a history, in order. -/
def dequeued (es : List Event) : List SqueueData :=
  es.filterMap fun
    | .locked _ .dequeue (.taken 0 out) => out
    | _ => none

end CFunction.ArrayQueue
