import CFunction.Misc.Runs
import CFunction.Misc.CInt
import CFunction.Misc.Heap

/-!
# The linked queue

`queue/list/lqueue.c`. A `list_node_t` is only ever part of a `lqueue_data_t`, and
`lqueue_container_of` goes from the one to the other, so one address stands for both. Nodes and
payload buffers live in two heaps; every statement of the source that follows or writes a
pointer is one heap operation, in the order of the source. Pointer arguments whose only use is
a `NULL` test or an output are passed as addresses, the output being part of the result.
-/

namespace CFunction.LinkedQueue

/-- `lqueue_data_t` with its `list_node_t` (`lqueue.h:10-19`). -/
structure LqueueData where
  pqdata : Ptr
  len : Int
  next : Ptr
  prev : Ptr
deriving DecidableEq, Repr

/-- `lqueue_t` (`lqueue.h:21-25`). -/
structure Lqueue where
  count : Int
  size : Int
  phead : Ptr
deriving DecidableEq, Repr

/-- The queue with the memory its functions work on. -/
structure World where
  queue : Lqueue
  nodes : Heap LqueueData
  payload : Heap (List UInt8)

/-- `lqueue_init` (`lqueue.c:18-27`). -/
def lqueueInit (q : Lqueue) (pqueue : Ptr) (size : Int) : Lqueue × Int :=
  if pqueue = 0 then (q, -11)
  else ({ q with count := 0, size := size, phead := 0 }, 0)

/-- The insertion shared by the enqueue functions (`lqueue.c:62-74`, `:102-114`, `:139-151`,
`:173-185`); only the front variants move `phead` when the queue is not empty. -/
def insertNode (front : Bool) (q : Lqueue) (nodes : Heap LqueueData) (pdata : Ptr) :
    Option (Lqueue × Heap LqueueData) :=
  if q.phead = 0 then do
    let nodes ← nodes.modify pdata fun d => { d with next := pdata }
    let nodes ← nodes.modify pdata fun d => { d with prev := pdata }
    some ({ q with phead := pdata }, nodes)
  else do
    let nodes ← nodes.modify pdata fun d => { d with next := q.phead }
    let head ← nodes.load q.phead
    let nodes ← nodes.modify head.prev fun d => { d with next := pdata }
    let head ← nodes.load q.phead
    let nodes ← nodes.modify pdata fun d => { d with prev := head.prev }
    let nodes ← nodes.modify q.phead fun d => { d with prev := pdata }
    some (if front then { q with phead := pdata } else q, nodes)

/-- How an enqueue function obtains the payload pointer: `lqueue_enqueue_*` keeps `pbuf`,
`lqueue_enqueue_*_ext` copies `length` bytes of what `pbuf` points to (`src`) to a buffer that
`malloc` answers with `m`. -/
inductive Payload
  | keep
  | copy (src : List UInt8) (m : Option Ptr)

/-- `memcpy(pdata->pqdata, pbuf, length)` to the fresh buffer `b`. A caller's buffer shorter
than `length` is read out of bounds. -/
def copyPayload (payload : Heap (List UInt8)) (b : Ptr) (src : List UInt8) (length : Int) :
    Option (Heap (List UInt8)) :=
  if 0 ≤ length ∧ length.toNat ≤ src.length then payload.malloc b (src.take length.toNat)
  else none

/-- Filling in the new node, inserting it and counting it. -/
def attachNode (front : Bool) (w : World) (nodes : Heap LqueueData) (payload : Heap (List UInt8))
    (pdata pqdata : Ptr) (length : Int) : Option (World × Int) := do
  let nodes ← nodes.modify pdata fun d => { d with pqdata := pqdata }
  let nodes ← nodes.modify pdata fun d => { d with len := length }
  let (q, nodes) ← insertNode front w.queue nodes pdata
  some (⟨{ q with count := toInt32 (q.count + 1) }, nodes, payload⟩, 0)

/-- The body of the four enqueue functions. `m` is what `malloc` answers for the node, with the
indeterminate contents of the new block. -/
def enqueueWith (front : Bool) (from' : Payload) (w : World) (pqueue pbuf : Ptr) (length : Int)
    (m : Option (Ptr × LqueueData)) : Option (World × Int) :=
  if pqueue = 0 ∨ pbuf = 0 then some (w, -11)
  else if w.queue.size > 0 ∧ w.queue.count ≥ w.queue.size then some (w, -1)
  else match m with
  | none => some (w, -10)
  | some (pdata, junk) => do
    let nodes ← w.nodes.malloc pdata junk
    match from' with
    | .keep => attachNode front w nodes w.payload pdata pbuf length
    | .copy _ none => do
      let nodes ← nodes.free pdata
      some ({ w with nodes := nodes }, -10)
    | .copy src (some b) => do
      let payload ← copyPayload w.payload b src length
      attachNode front w nodes payload pdata b length

/-- `lqueue_enqueue_front_ext` (`lqueue.c:38-77`). -/
def lqueueEnqueueFrontExt (w : World) (pqueue pbuf : Ptr) (src : List UInt8) (length : Int)
    (m : Option (Ptr × LqueueData)) (m' : Option Ptr) : Option (World × Int) :=
  enqueueWith true (.copy src m') w pqueue pbuf length m

/-- `lqueue_enqueue_back_ext` (`lqueue.c:79-117`). -/
def lqueueEnqueueBackExt (w : World) (pqueue pbuf : Ptr) (src : List UInt8) (length : Int)
    (m : Option (Ptr × LqueueData)) (m' : Option Ptr) : Option (World × Int) :=
  enqueueWith false (.copy src m') w pqueue pbuf length m

/-- `lqueue_enqueue_front` (`lqueue.c:119-152`). -/
def lqueueEnqueueFront (w : World) (pqueue pbuf : Ptr) (length : Int)
    (m : Option (Ptr × LqueueData)) : Option (World × Int) :=
  enqueueWith true .keep w pqueue pbuf length m

/-- `lqueue_enqueue_back` (`lqueue.c:154-187`). -/
def lqueueEnqueueBack (w : World) (pqueue pbuf : Ptr) (length : Int)
    (m : Option (Ptr × LqueueData)) : Option (World × Int) :=
  enqueueWith false .keep w pqueue pbuf length m

/-- The unlinking of the last node in `lqueue_dequeue_back` (`lqueue.c:227-235`). -/
def unlinkBack (q : Lqueue) (nodes : Heap LqueueData) :
    Option (Lqueue × Heap LqueueData × Ptr) := do
  let head ← nodes.load q.phead
  if head.next = q.phead then
    let ppdata := q.phead
    some ({ q with phead := 0 }, nodes, ppdata)
  else
    let ppdata := head.prev
    let last ← nodes.load head.prev
    let nodes ← nodes.modify last.prev fun d => { d with next := q.phead }
    let head ← nodes.load q.phead
    let last ← nodes.load head.prev
    let nodes ← nodes.modify q.phead fun d => { d with prev := last.prev }
    some (q, nodes, ppdata)

/-- `lqueue_dequeue_back` (`lqueue.c:216-242`); the pair is what is written to `*pbuf` and
`*plen`. -/
def lqueueDequeueBack (w : World) (pqueue pbuf plen : Ptr) :
    Option (World × Int × Option (Ptr × Int)) :=
  if pqueue = 0 ∨ pbuf = 0 ∨ plen = 0 then some (w, -11, none)
  else if w.queue.phead = 0 then some (w, -1, none)
  else do
    let (q, nodes, ppdata) ← unlinkBack w.queue w.nodes
    let data ← nodes.load ppdata
    let nodes ← nodes.free ppdata
    let q := { q with count := toInt32 (q.count - 1) }
    some ({ w with queue := q, nodes := nodes }, 0, some (data.pqdata, data.len))

/-- What `lqueue_dequeue_front` does to the links (`lqueue.c:201-207`). -/
def unlinkFront (q : Lqueue) (nodes : Heap LqueueData) :
    Option (Lqueue × Heap LqueueData × Ptr) := do
  let ppdata := q.phead
  let head ← nodes.load q.phead
  if head.next = q.phead then some ({ q with phead := 0 }, nodes, ppdata)
  else
    let nodes ← nodes.modify head.prev fun d => { d with next := head.next }
    let head ← nodes.load q.phead
    let nodes ← nodes.modify head.next fun d => { d with prev := head.prev }
    some (q, nodes, ppdata)

/-- `lqueue_dequeue_front` (`lqueue.c:189-214`). `out` is what `*pbuf` and `*plen` hold before
the call, and the last component what they hold after it: `pbuf = ppdata->pqdata` assigns to the
parameter, so that `*pbuf` keeps its value. -/
def lqueueDequeueFront (w : World) (pqueue pbuf plen : Ptr) (out : Ptr × Int) :
    Option (World × Int × (Ptr × Int)) :=
  if pqueue = 0 ∨ pbuf = 0 ∨ plen = 0 then some (w, -11, out)
  else if w.queue.phead = 0 then some (w, -1, out)
  else do
    let (q, nodes, ppdata) ← unlinkFront w.queue w.nodes
    let data ← nodes.load ppdata
    let nodes ← nodes.free ppdata
    let q := { q with count := toInt32 (q.count - 1) }
    some ({ w with queue := q, nodes := nodes }, 0, (out.1, data.len))

/-! ### Tearing down -/

/-- `lqueue_data_destroy_ext` (`lqueue.c:29-36`). -/
def lqueueDataDestroyExt (payload : Heap (List UInt8)) (pbuf : Ptr) :
    Option (Heap (List UInt8)) :=
  if pbuf ≠ 0 then payload.free pbuf else some payload

/-- The state of a teardown: the queue, the nodes, what the callback works on, the payloads it
has been called with and the nodes that have been freed, in order. -/
structure Teardown (σ : Type) where
  queue : Lqueue
  nodes : Heap LqueueData
  env : σ
  called : List Ptr
  freed : List Ptr

variable {σ : Type}

/-- `if(destroy != NULL) destroy(pdata->pqdata)` for the payload pointer `pqdata`. -/
def Teardown.callback (t : Teardown σ) (destroy : Option (σ → Ptr → σ)) (pqdata : Ptr) :
    Teardown σ :=
  match destroy with
  | none => t
  | some f => { t with env := f t.env pqdata, called := t.called ++ [pqdata] }

/-- The body of the loop of `lqueue_destroy` (`lqueue.c:251-261`). -/
def destroyRound (destroy : Option (σ → Ptr → σ)) (t : Teardown σ) : Option (Teardown σ) := do
  let pdata := t.queue.phead
  let head ← t.nodes.load t.queue.phead
  let phead := if t.queue.phead = head.next then 0 else head.next
  let t := { t with queue := { t.queue with phead := phead } }
  let data ← t.nodes.load pdata
  let t := t.callback destroy data.pqdata
  let nodes ← t.nodes.free pdata
  some { t with nodes := nodes, freed := t.freed ++ [pdata] }

/-- `while(pqueue->phead !=NULL)` with at most `fuel` rounds; a loop that has not ended by then
has no result. -/
def destroyLoop (destroy : Option (σ → Ptr → σ)) : Nat → Teardown σ → Option (Teardown σ)
  | 0, _ => none
  | fuel + 1, t =>
    if t.queue.phead ≠ 0 then do destroyLoop destroy fuel (← destroyRound destroy t) else some t

/-- `lqueue_destroy` (`lqueue.c:243-266`). The callback may do anything to its own `env` but
does not touch the queue. -/
def lqueueDestroy (destroy : Option (σ → Ptr → σ)) (fuel : Nat) (w : World) (env : σ)
    (pqueue : Ptr) : Option (Teardown σ) :=
  if pqueue = 0 then some ⟨w.queue, w.nodes, env, [], []⟩
  else do
    let t ← destroyLoop destroy fuel ⟨w.queue, w.nodes, env, [], []⟩
    some { t with queue := { t.queue with count := 0, size := 0 } }

/-- `lqueue_is_full` (`lqueue.c:268-275`). -/
def lqueueIsFull (q : Lqueue) : Bool := q.size > 0 ∧ q.count ≥ q.size

/-- `lqueue_is_empty` (`lqueue.c:277-284`). -/
def lqueueIsEmpty (q : Lqueue) : Bool := q.phead = 0

/-- A call of one of the five functions with its arguments after the queue. -/
inductive Call
  | enqueue (front : Bool) (from' : Payload) (pbuf : Ptr) (length : Int)
      (m : Option (Ptr × LqueueData))
  | dequeueBack

/-- The call on a queue at a non-`NULL` address, its output arguments being non-`NULL` too. -/
def Call.exec (w : World) : Call → Option (World × Int × Option (Ptr × Int))
  | .enqueue true .keep pbuf length m =>
    (lqueueEnqueueFront w 1 pbuf length m).map fun (w, ret) => (w, ret, none)
  | .enqueue true (.copy src m') pbuf length m =>
    (lqueueEnqueueFrontExt w 1 pbuf src length m m').map fun (w, ret) => (w, ret, none)
  | .enqueue false .keep pbuf length m =>
    (lqueueEnqueueBack w 1 pbuf length m).map fun (w, ret) => (w, ret, none)
  | .enqueue false (.copy src m') pbuf length m =>
    (lqueueEnqueueBackExt w 1 pbuf src length m m').map fun (w, ret) => (w, ret, none)
  | .dequeueBack => lqueueDequeueBack w 1 1 1

/-- A call with what it returned and wrote to its output arguments. -/
structure Event where
  call : Call
  ret : Int
  out : Option (Ptr × Int)

/-- Calls with non-`NULL` arguments, as long as `count` can be incremented. -/
inductive Step : World → Event → World → Prop
  | call {w w' : World} {c : Call} {ret : Int} {out : Option (Ptr × Int)}
      (nonNull : ∀ front from' pbuf length m, c = .enqueue front from' pbuf length m → pbuf ≠ 0)
      (few : c ≠ .dequeueBack → ret = 0 → w.queue.count < 2147483647)
      (done : c.exec w = some (w', ret, out)) : Step w ⟨c, ret, out⟩ w'

end CFunction.LinkedQueue
