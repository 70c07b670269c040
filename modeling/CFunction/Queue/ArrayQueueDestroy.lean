import CFunction.Queue.ArrayQueue

/-!
# Tearing down an array queue

`squeue_destroy` and `squeue_data_destroy` of `queue/array/queue.c`. The callback is a function
on a state `σ` of its own: it is handed the address of the item just dequeued, may change the
item, and need not return. `LifeStep` adds the teardown to `Step`, and the end of the program
where a critical section goes through a `NULL` `qdata`; `OwnStep` has the calls of
`squeue_enqueue_ext` and `squeue_dequeue` one after the other, to follow the payload buffers.
-/

namespace CFunction.ArrayQueue

/-- `squeue_data_destroy` (`queue.c:45-55`). -/
def squeueDataDestroy (heap : Payloads) (d : SqueueData) : Option (Payloads × SqueueData) :=
  if d.pdata ≠ 0 then do
    let heap ← heap.free d.pdata
    some (heap, { d with pdata := 0, length := 0 })
  else some (heap, d)

/-- The argument `destroy` of `squeue_destroy`; `none` is `NULL`. -/
abbrev Callback (σ : Type) := Option (σ → SqueueData → Option (σ × SqueueData))

/-- `squeue_destroy` on its way: the queue, its local `data`, the state of the callback, and
what has been dequeued and passed to the callback so far, the latter with the queue as it was
at the call. -/
structure Teardown (σ : Type) where
  queue : Squeue
  data : SqueueData
  env : σ
  dequeued : List SqueueData
  calls : List (SqueueData × Squeue)

variable {σ : Type}

/-- `if (destroy) destroy(&data)`. -/
def Teardown.callback (t : Teardown σ) : Callback σ → Option (Teardown σ)
  | none => some t
  | some destroy => do
    let (env, data) ← destroy t.env t.data
    some { t with env := env, data := data, calls := t.calls ++ [(t.data, t.queue)] }

/-- The body of the loop (`queue.c:151-155`). -/
def destroyRound (destroy : Callback σ) (t : Teardown σ) : Option (Teardown σ) := do
  let (queue, _, out) ← dequeueLocked t.queue
  let t := { t with
    queue := queue, data := out.getD t.data, dequeued := t.dequeued ++ out.toList }
  t.callback destroy

/-- `while(pqueue->count > 0)`. -/
def destroyLoop (destroy : Callback σ) : Nat → Teardown σ → Option (Teardown σ)
  | 0, _ => none
  | fuel + 1, t =>
    if t.queue.count > 0 then do destroyLoop destroy fuel (← destroyRound destroy t) else some t

/-- `squeue_destroy` (`queue.c:144-164`); `data` is what the uninitialised local holds. -/
def squeueDestroy (destroy : Callback σ) (fuel : Nat) (q : Squeue) (env : σ)
    (data : SqueueData) : Option (Teardown σ) := do
  let t ← destroyLoop destroy fuel ⟨q, data, env, [], []⟩
  some { t with queue := { t.queue with qdata := none } }

/-! ## A queue with its teardown -/

inductive LifeEvent
  | call (e : Event)
  /-- Thread `t` executes `squeue_destroy`, which dequeues `items`. -/
  | destroy (t : Nat) (items : List SqueueData)
  /-- The critical section of thread `t` accesses a slot that is not there. -/
  | fault (t : Nat) (cs : CriticalSection)
  /-- `squeue_destroy`, called by thread `t`, does so. -/
  | destroyFault (t : Nat)

/-- After an access to a slot that is not there nothing more can be said: the state is
`none`. -/
inductive LifeStep : Option System → LifeEvent → Option System → Prop
  | call {s s' : System} {e : Event} (step : Step s e s') :
      LifeStep (some s) (.call e) (some s')
  | destroy {s : System} {t : Nat} (destroy : Callback Payloads) {fuel : Nat}
      {data : SqueueData} {td : Teardown Payloads} (idle : s.waiting t = none)
      (done : squeueDestroy destroy fuel s.queue s.heap data = some td) :
      LifeStep (some s) (.destroy t td.dequeued)
        (some { s with queue := td.queue, heap := td.env })
  | fault {s : System} {t : Nat} {cs : CriticalSection} (ready : s.waiting t = some cs)
      (stuck : cs.exec s.queue = none) : LifeStep (some s) (.fault t cs) none
  | destroyFault {s : System} {t : Nat} (idle : s.waiting t = none)
      (stuck : ∀ fuel data, squeueDestroy none fuel s.queue () data = none) :
      LifeStep (some s) (.destroyFault t) none

/-- The calls of a history, without the teardowns. -/
def callEvents (es : List LifeEvent) : List Event :=
  es.filterMap fun
    | .call e => some e
    | _ => none

/-- The items that have left the queue, in order. -/
def removed (es : List LifeEvent) : List SqueueData :=
  es.flatMap fun
    | .call e => dequeued [e]
    | .destroy _ items => items
    | _ => []

/-- `squeue_destroy` has been executed. -/
def Destroyed (es : List LifeEvent) : Prop := ∃ t items, LifeEvent.destroy t items ∈ es

/-! ## The owners of the payload buffers -/

/-- A queue and the heap its payloads live in. -/
structure Owner where
  queue : Squeue
  heap : Payloads

/-- A call with what it answers, and the states before and after it. -/
inductive OwnEvent
  | enqueueExt (before : Owner) (src : List UInt8) (length : Nat) (m : Option Ptr) (ret : Int)
      (after : Owner)
  | dequeue (before : Owner) (ret : Int) (out : Option SqueueData) (after : Owner)

inductive OwnStep : Owner → OwnEvent → Owner → Prop
  | enqueueExt {o : Owner} {src : List UInt8} {length : Nat} {m : Option Ptr}
      {heap : Payloads} {q : Squeue} {ret : Int}
      (done : squeueEnqueueExt o.heap o.queue src length m = some (heap, q, ret)) :
      OwnStep o (.enqueueExt o src length m ret ⟨q, heap⟩) ⟨q, heap⟩
  | dequeue {o : Owner} {q : Squeue} {ret : Int} {out : Option SqueueData}
      (done : squeueDequeue o.queue = some (q, ret, out)) :
      OwnStep o (.dequeue o ret out ⟨q, o.heap⟩) ⟨q, o.heap⟩

/-- The state after the call. -/
def OwnEvent.after : OwnEvent → Owner
  | .enqueueExt _ _ _ _ _ after => after
  | .dequeue _ _ _ after => after

/-- The items that `squeue_dequeue` has handed to its callers. -/
def handedOut (es : List OwnEvent) : List SqueueData :=
  es.filterMap fun
    | .dequeue _ 0 out _ => out
    | _ => none

end CFunction.ArrayQueue
