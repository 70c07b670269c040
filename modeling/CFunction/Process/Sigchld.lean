import CFunction.Misc.Runs
import Mathlib.Data.List.Basic

/-!
# The children of a process

`process/sigchld.c`: `main` forks ten children and installs the handler `do_sig_child`, which reaps.
Children end at any time. `SIGCHLD` is ignored until the handler is installed, it is blocked while
the handler runs, and it does not queue. A child is named by its number in the order of `fork`.
-/

namespace CFunction
namespace Sigchld

/-- `for (i = 0; i < 10; i++)` -/
def CHILDREN : Nat := 10

/-- The status of a child that has ended: `WEXITSTATUS` or `WTERMSIG`. -/
inductive Status where
  | exited (code : Nat)
  | signaled (signo : Nat)
  deriving DecidableEq, Repr

inductive Child where
  | running
  /-- It has ended, and no `waitpid` has returned it. -/
  | zombie (status : Status)
  | reaped
  deriving DecidableEq, Repr

/-- The statement that `main` executes next. -/
inductive Pc where
  | fork
  | sigaction
  /-- `while (1)` of the parent. -/
  | loop
  /-- `sys_err` -/
  | failed
  deriving DecidableEq, Repr

structure State where
  pc : Pc
  children : List Child
  /-- `SIGCHLD` is pending. -/
  pending : Bool
  /-- `do_sig_child` runs. -/
  handling : Bool
  deriving DecidableEq, Repr

def State.init : State where
  pc := .fork
  children := []
  pending := false
  handling := false

/-- `SIGCHLD` has its handler. -/
def State.installed (s : State) : Bool := s.pc = .loop

/-- `return i+1` -/
def exitCode (i : Nat) : Nat := i + 1

/-- `fork`; `granted` says whether it succeeds. -/
def fork (s : State) (granted : Bool) : Option State :=
  if s.pc ≠ .fork then none
  else if s.children.length < CHILDREN then
    if granted then some { s with children := s.children ++ [.running] }
    else some { s with pc := .failed }
  else some { s with pc := .sigaction }

/-- `sigaction(SIGCHLD, &act, NULL)` -/
def sigaction (s : State) : Option State :=
  if s.pc = .sigaction then some { s with pc := .loop } else none

/-- The child `i` ends, by its `return` or by a signal. -/
def ends (s : State) (i : Nat) (killedBy : Option Nat) : Option (State × Status) :=
  if s.children[i]? = some .running then
    let status := match killedBy with
      | none => .exited (exitCode i)
      | some signo => .signaled signo
    some ({ s with children := s.children.set i (.zombie status), pending := s.installed }, status)
  else none

/-- `SIGCHLD` is delivered: `do_sig_child` begins. -/
def deliver (s : State) : Option State :=
  if s.pending ∧ ¬ s.handling then some { s with pending := false, handling := true } else none

/-- `waitpid(0, &status, WNOHANG)` in `do_sig_child`: the child `i` that is reported. -/
def waitpid (s : State) (i : Nat) : Option (State × Status) :=
  if s.handling then
    match s.children[i]? with
    | some (.zombie status) => some ({ s with children := s.children.set i .reaped }, status)
    | _ => none
  else none

def Child.isZombie : Child → Bool
  | .zombie _ => true
  | _ => false

/-- `waitpid` finds no child that has ended, and `do_sig_child` returns. -/
def returns (s : State) : Option State :=
  if s.handling ∧ ¬ s.children.any Child.isZombie then some { s with handling := false } else none

/-- What a step shows. `reports` is the line printed of a child. -/
inductive Event where
  | forks (granted : Bool)
  | sigaction
  | ends (i : Nat) (status : Status)
  | deliver
  | reports (i : Nat) (status : Status)
  | returns
  deriving DecidableEq, Repr

inductive Step : State → Event → State → Prop
  | forks {s s' : State} {granted : Bool} (h : fork s granted = some s') :
      Step s (.forks granted) s'
  | sigaction {s s' : State} (h : sigaction s = some s') : Step s .sigaction s'
  | ends {s s' : State} {i : Nat} {killedBy : Option Nat} {status : Status}
      (h : ends s i killedBy = some (s', status)) : Step s (.ends i status) s'
  | deliver {s s' : State} (h : deliver s = some s') : Step s .deliver s'
  | reports {s s' : State} {i : Nat} {status : Status}
      (h : waitpid s i = some (s', status)) : Step s (.reports i status) s'
  | returns {s s' : State} (h : returns s = some s') : Step s .returns s'

end Sigchld
end CFunction
