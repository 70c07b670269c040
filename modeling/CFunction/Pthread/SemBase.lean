import CFunction.Misc.BoundedBuffer
import CFunction.Misc.Runs

/-!
# The producer and the consumer of `sem/base`

The two threads have no lock. As for `sem_pc`, each semaphore operation and each access to a slot
of `queue` is a step; here the index is a counter modulo `NUM`, and both loops go on forever.
-/

namespace CFunction
namespace SemBase

open BoundedBuffer

abbrev NUM : Nat := 5

inductive ProducerPc where
  | waitBlank
  | store
  /-- The slot is read for the output. -/
  | print
  | postProduct
  /-- `i = (i + 1) % NUM` -/
  | advance
  deriving DecidableEq, Repr

inductive ConsumerPc where
  | waitProduct
  /-- The slot is read for the output. -/
  | print
  | clear
  | postBlank
  /-- `i = (i + 1) % NUM` -/
  | advance
  deriving DecidableEq, Repr

structure State where
  queue : Fin NUM → Int
  blankNumber : Nat
  productNumber : Nat
  producer : ProducerPc
  producerI : Nat
  consumer : ConsumerPc
  consumerI : Nat

/-- The semaphores as `main` creates them, before the threads have run. -/
def State.init (queue : Fin NUM → Int) : State where
  queue := queue
  blankNumber := NUM
  productNumber := 0
  producer := .waitBlank
  producerI := 0
  consumer := .waitProduct
  consumerI := 0

/-- One step of `producer`; `value` is `rand() % 1000 + 1`. -/
def producerStep (value : Int) (s : State) : Option State :=
  match s.producer with
  | .waitBlank => do
    let blankNumber ← semWait s.blankNumber
    some { s with blankNumber := blankNumber, producer := .store }
  | .store =>
    some { s with
      queue := Function.update s.queue (slot NUM s.producerI) value, producer := .print }
  | .print => some { s with producer := .postProduct }
  | .postProduct => some { s with productNumber := semPost s.productNumber, producer := .advance }
  | .advance => some { s with producerI := (s.producerI + 1) % NUM, producer := .waitBlank }

/-- One step of `consumer`. -/
def consumerStep (s : State) : Option State :=
  match s.consumer with
  | .waitProduct => do
    let productNumber ← semWait s.productNumber
    some { s with productNumber := productNumber, consumer := .print }
  | .print => some { s with consumer := .clear }
  | .clear =>
    some { s with
      queue := Function.update s.queue (slot NUM s.consumerI) 0, consumer := .postBlank }
  | .postBlank => some { s with blankNumber := semPost s.blankNumber, consumer := .advance }
  | .advance => some { s with consumerI := (s.consumerI + 1) % NUM, consumer := .waitProduct }

/-- What a step shows: who has made it at which statement, and the value which `producer` stores
or which `consumer` finds in its slot. -/
inductive Event where
  | producer (pc : ProducerPc) (value : Int)
  | consumer (pc : ConsumerPc) (value : Int)
  deriving DecidableEq, Repr

inductive Step : State → Event → State → Prop
  | producer {s s' : State} {value : Int} (random : 1 ≤ value ∧ value ≤ 1000)
      (h : producerStep value s = some s') : Step s (.producer s.producer value) s'
  | consumer {s s' : State} (h : consumerStep s = some s') :
      Step s (.consumer s.consumer (s.queue (slot NUM s.consumerI))) s'

/-- The values stored, in order. -/
def produced (es : List Event) : List Int :=
  es.filterMap fun
    | .producer .store value => some value
    | _ => none

/-- The values that `consumer` prints, in order. -/
def consumed (es : List Event) : List Int :=
  es.filterMap fun
    | .consumer .print value => some value
    | _ => none

end SemBase
end CFunction
