import CFunction.Misc.BoundedBuffer
import CFunction.Misc.Runs

/-!
# The producer and the consumer of `sem_pc`

Each semaphore operation and each access to the buffer is a step of one of the two threads, in
any order. The increment of a loop is part of the step before it.
-/

namespace CFunction
namespace SemPc

open BoundedBuffer

abbrev NBUFF : Nat := 10

/-- Where `produce` is: the statement it executes next. -/
inductive ProducePc where
  | test
  | waitNempty
  | waitMutex
  | store
  | postMutex
  | postNstored
  | done
  deriving DecidableEq, Repr

/-- Where `consume` is. `report` is the second access to the slot, when the check fails. -/
inductive ConsumePc where
  | test
  | waitNstored
  | waitMutex
  | check
  | report
  | postMutex
  | postNempty
  | done
  deriving DecidableEq, Repr

/-- `shared`, and the two threads with their counters. -/
structure State where
  buff : Fin NBUFF → Int
  mutex : Nat
  nempty : Nat
  nstored : Nat
  produce : ProducePc
  produceI : Nat
  consume : ConsumePc
  consumeI : Nat

/-- The semaphores as `main` creates them, before the threads have run. -/
def State.init (buff : Fin NBUFF → Int) : State where
  buff := buff
  mutex := 1
  nempty := NBUFF
  nstored := 0
  produce := .test
  produceI := 0
  consume := .test
  consumeI := 0

/-- One step of `produce`; no result when the thread waits or has returned. -/
def produceStep (nitems : Int) (s : State) : Option State :=
  match s.produce with
  | .test => some { s with produce := if s.produceI < nitems then .waitNempty else .done }
  | .waitNempty => do
    let nempty ← semWait s.nempty
    some { s with nempty := nempty, produce := .waitMutex }
  | .waitMutex => do
    let mutex ← semWait s.mutex
    some { s with mutex := mutex, produce := .store }
  | .store =>
    some { s with
      buff := Function.update s.buff (slot NBUFF s.produceI) s.produceI, produce := .postMutex }
  | .postMutex => some { s with mutex := semPost s.mutex, produce := .postNstored }
  | .postNstored =>
    some { s with nstored := semPost s.nstored, produceI := s.produceI + 1, produce := .test }
  | .done => none

/-- One step of `consume`. -/
def consumeStep (nitems : Int) (s : State) : Option State :=
  match s.consume with
  | .test => some { s with consume := if s.consumeI < nitems then .waitNstored else .done }
  | .waitNstored => do
    let nstored ← semWait s.nstored
    some { s with nstored := nstored, consume := .waitMutex }
  | .waitMutex => do
    let mutex ← semWait s.mutex
    some { s with mutex := mutex, consume := .check }
  | .check =>
    some { s with
      consume := if s.buff (slot NBUFF s.consumeI) ≠ s.consumeI then .report else .postMutex }
  | .report => some { s with consume := .postMutex }
  | .postMutex => some { s with mutex := semPost s.mutex, consume := .postNempty }
  | .postNempty =>
    some { s with nempty := semPost s.nempty, consumeI := s.consumeI + 1, consume := .test }
  | .done => none

/-- What a step shows: who has made it at which statement and, for `consume`, the counter and the
value of its slot. -/
inductive Event where
  | produce (pc : ProducePc)
  | consume (pc : ConsumePc) (i : Nat) (value : Int)
  deriving DecidableEq, Repr

inductive Step (nitems : Int) : State → Event → State → Prop
  | produce {s s' : State} (h : produceStep nitems s = some s') :
      Step nitems s (.produce s.produce) s'
  | consume {s s' : State} (h : consumeStep nitems s = some s') :
      Step nitems s (.consume s.consume s.consumeI (s.buff (slot NBUFF s.consumeI))) s'

/-- The step of one of the two threads, as a function. -/
def act (nitems : Int) (s : State) (producer : Bool) : Option (Event × State) :=
  if producer then (produceStep nitems s).map (.produce s.produce, ·)
  else (consumeStep nitems s).map
    (.consume s.consume s.consumeI (s.buff (slot NBUFF s.consumeI)), ·)

end SemPc
end CFunction
