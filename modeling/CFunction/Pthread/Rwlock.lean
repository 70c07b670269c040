import CFunction.Misc.Runs
import Mathlib.Logic.Function.Basic

/-!
# The readers and the writers

`pthread/rwlock/rwlock.c`: five threads run `pthread_write` and five `pthread_read`, and `main`
cancels them once it has seen `love >= 520`. `love+=40` reads and writes `love` in two steps. The
lock is the threads that hold it.
-/

namespace CFunction
namespace Rwlock

/-- `for (i = 0; i != 5; i++)` -/
abbrev THREADS : Nat := 5

/-- The statement that `pthread_write` executes next. -/
inductive WritePc where
  /-- `while(love <= 520)`, after `sleep(1)` except at first. -/
  | test
  | wrlock
  /-- `love+=40`, the reading. -/
  | load
  /-- `love+=40`, the writing, and `printf`. -/
  | store (loaded : Int)
  | unlock
  | done
  | cancelled
  deriving DecidableEq, Repr

/-- The statement that `pthread_read` executes next. -/
inductive ReadPc where
  | test
  | rdlock
  | print
  | unlock
  | done
  | cancelled
  deriving DecidableEq, Repr

structure State where
  love : Int
  wrlocked : Bool
  rdlocked : Fin THREADS → Bool
  write : Fin THREADS → WritePc
  read : Fin THREADS → ReadPc

def State.init : State where
  love := 0
  wrlocked := false
  rdlocked := fun _ => false
  write := fun _ => .test
  read := fun _ => .test

def State.setWrite (s : State) (i : Fin THREADS) (pc : WritePc) : State :=
  { s with write := Function.update s.write i pc }

def State.setRead (s : State) (i : Fin THREADS) (pc : ReadPc) : State :=
  { s with read := Function.update s.read i pc }

/-- One step of `pthread_write`; no result when the thread waits or has ended. -/
def writeStep (s : State) (i : Fin THREADS) : Option State :=
  match s.write i with
  | .test => some (s.setWrite i (if s.love ≤ 520 then .wrlock else .done))
  | .wrlock =>
    if s.wrlocked = false ∧ ∀ k, s.rdlocked k = false then
      some { s.setWrite i .load with wrlocked := true }
    else none
  | .load => some (s.setWrite i (.store s.love))
  | .store loaded => some { s.setWrite i .unlock with love := loaded + 40 }
  | .unlock => some { s.setWrite i .test with wrlocked := false }
  | .done => none
  | .cancelled => none

/-- One step of `pthread_read`. -/
def readStep (s : State) (i : Fin THREADS) : Option State :=
  match s.read i with
  | .test => some (s.setRead i (if s.love ≤ 520 then .rdlock else .done))
  | .rdlock =>
    if s.wrlocked = false then
      some { s.setRead i .print with rdlocked := Function.update s.rdlocked i true }
    else none
  | .print => some (s.setRead i .unlock)
  | .unlock => some { s.setRead i .test with rdlocked := Function.update s.rdlocked i false }
  | .done => none
  | .cancelled => none

/-- `pthread_cancel` of a writer in `sleep` or in `printf`, where it keeps the lock. -/
def cancelWrite (s : State) (i : Fin THREADS) : Option State :=
  if s.love ≥ 520 ∧ (s.write i = .test ∨ s.write i = .unlock) then some (s.setWrite i .cancelled)
  else none

/-- `pthread_cancel` of a reader. -/
def cancelRead (s : State) (i : Fin THREADS) : Option State :=
  if s.love ≥ 520 ∧ (s.read i = .test ∨ s.read i = .unlock) then some (s.setRead i .cancelled)
  else none

/-- What a step shows: the lines of `printf` with their value of `love`. -/
inductive Event where
  | write (i : Fin THREADS) (love : Int)
  | read (i : Fin THREADS) (love : Int)
  | silent
  deriving DecidableEq, Repr

inductive Step : State → Event → State → Prop
  | write {s s' : State} {i : Fin THREADS} {loaded : Int} (hpc : s.write i = .store loaded)
      (h : writeStep s i = some s') : Step s (.write i s'.love) s'
  | writeSilent {s s' : State} {i : Fin THREADS} (hpc : ∀ loaded, s.write i ≠ .store loaded)
      (h : writeStep s i = some s') : Step s .silent s'
  | read {s s' : State} {i : Fin THREADS} (hpc : s.read i = .print)
      (h : readStep s i = some s') : Step s (.read i s.love) s'
  | readSilent {s s' : State} {i : Fin THREADS} (hpc : s.read i ≠ .print)
      (h : readStep s i = some s') : Step s .silent s'
  | cancelWrite {s s' : State} {i : Fin THREADS} (h : cancelWrite s i = some s') :
      Step s .silent s'
  | cancelRead {s s' : State} {i : Fin THREADS} (h : cancelRead s i = some s') :
      Step s .silent s'

end Rwlock
end CFunction
