import CFunction.Queue.ArrayQueue
import CFunction.Queue.LinkedQueue

/-!
# One interface over both queues

The operations that the array queue and the linked queue have in common, executed on either:
`squeue_enqueue_ext`, `squeue_dequeue`, `squeue_is_full`, `squeue_is_empty` on the one side,
`lqueue_enqueue_front_ext`, `lqueue_dequeue_back`, `lqueue_is_full`, `lqueue_is_empty` on the
other. An answer does not mention addresses: of a delivered buffer it shows the bytes.
-/

namespace CFunction.Interchange

/-- An operation with its arguments; `src` is what the caller's buffer holds. -/
inductive Op
  | enqueue (src : List UInt8) (length : Nat)
  | dequeue
  | isFull
  | isEmpty
deriving DecidableEq, Repr

/-- A positive `int` length that stays inside the caller's buffer. -/
def Op.Legal : Op → Prop
  | .enqueue src length => 0 < length ∧ length ≤ 2147483647 ∧ length ≤ src.length
  | _ => True

/-- What the caller sees: a code, a code with the bytes and the length delivered, or a truth
value. The bytes are `none` if the returned pointer holds no buffer. -/
inductive Answer
  | code (ret : Int)
  | item (ret : Int) (out : Option (Option (List UInt8) × Int))
  | truth (b : Bool)
deriving DecidableEq, Repr

structure Event where
  op : Op
  answer : Answer
deriving DecidableEq, Repr

/-- What a caller sees of a buffer pointer and a length that it has been given. -/
def deliver (heap : Heap (List UInt8)) (out : Ptr × Int) : Option (List UInt8) × Int :=
  (heap.load out.1, out.2)

/-! ## The array queue -/

/-- The array queue and the heap its buffers live in. -/
structure ArrayState where
  queue : ArrayQueue.Squeue
  heap : ArrayQueue.Payloads

/-- The two fields of the `squeue_data_t` that a dequeue fills in. -/
def arrayOut (data : ArrayQueue.SqueueData) : Ptr × Int := (data.pdata, data.length)

/-- One operation; `p` is what `malloc` answers. -/
def arrayExec (s : ArrayState) (p : Ptr) : Op → Option (ArrayState × Answer)
  | .enqueue src length => do
    let (heap, q, ret) ← ArrayQueue.squeueEnqueueExt s.heap s.queue src length (some p)
    some (⟨q, heap⟩, .code ret)
  | .dequeue => do
    let (q, ret, out) ← ArrayQueue.squeueDequeue s.queue
    some (⟨q, s.heap⟩, .item ret ((out.map arrayOut).map (deliver s.heap)))
  | .isFull => some (s, .truth (ArrayQueue.squeueIsFull s.queue))
  | .isEmpty => some (s, .truth (ArrayQueue.squeueIsEmpty s.queue))

inductive ArrayStep : ArrayState → Event → ArrayState → Prop
  | call {s s' : ArrayState} {answer : Answer} (op : Op) (legal : op.Legal) (p : Ptr)
      (done : arrayExec s p op = some (s', answer)) : ArrayStep s ⟨op, answer⟩ s'

/-! ## The linked queue -/

/-- One operation on a queue at a non-`NULL` address with non-`NULL` arguments; `node` and `b`
are what the two `malloc`s answer. -/
def listExec (w : LinkedQueue.World) (node : Ptr × LinkedQueue.LqueueData) (b : Ptr) :
    Op → Option (LinkedQueue.World × Answer)
  | .enqueue src length => do
    let (w, ret) ← LinkedQueue.lqueueEnqueueFrontExt w 1 1 src length (some node) (some b)
    some (w, .code ret)
  | .dequeue => do
    let (w, ret, out) ← LinkedQueue.lqueueDequeueBack w 1 1 1
    some (w, .item ret (out.map (deliver w.payload)))
  | .isFull => some (w, .truth (LinkedQueue.lqueueIsFull w.queue))
  | .isEmpty => some (w, .truth (LinkedQueue.lqueueIsEmpty w.queue))

inductive ListStep : LinkedQueue.World → Event → LinkedQueue.World → Prop
  | call {w w' : LinkedQueue.World} {answer : Answer} (op : Op) (legal : op.Legal)
      (node : Ptr × LinkedQueue.LqueueData) (b : Ptr)
      (done : listExec w node b op = some (w', answer)) : ListStep w ⟨op, answer⟩ w'

end CFunction.Interchange
