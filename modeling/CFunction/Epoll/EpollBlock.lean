import CFunction.Misc.CString
import CFunction.Misc.Runs

/-!
# Edge-triggered reading

`epoll/epoll_block.c`: a client that `epoll_process` has accepted is added with `EPOLLET` and
`O_NONBLOCK`, and `epoll_et_loop` reads it. The client sends and hangs up at any time, also between
two calls of `recv`.
-/

namespace CFunction
namespace EpollBlock

open CString

def MAX_BUFFER_SIZE : Nat := 5

/-- How the client ends: `recv` gives 0, or an error other than `EAGAIN`. -/
inductive End where
  | closed
  | reset
  deriving DecidableEq, Repr

/-- Where the server is with this client. -/
inductive Pc where
  /-- Not in `epoll_et_loop`. -/
  | idle
  /-- `recv` -/
  | recv
  /-- `close(sockfd)` -/
  | close
  deriving DecidableEq, Repr

structure State where
  /-- The bytes that have come and are not read. -/
  bytes : Bytes
  /-- What is behind the bytes. -/
  ended : Option End
  /-- `epoll_ctl(epfd, EPOLL_CTL_ADD, fd, &ev)` is done. -/
  added : Bool
  /-- The descriptor is on the ready list of `epfd`. -/
  ready : Bool
  pc : Pc
  closed : Bool
  deriving DecidableEq, Repr

def State.init : State where
  bytes := []
  ended := none
  added := false
  ready := false
  pc := .idle
  closed := false

/-- The client sends. -/
def send (s : State) (data : Bytes) : Option State :=
  if data ≠ [] ∧ s.ended = none then
    some { s with bytes := s.bytes ++ data, ready := s.added }
  else none

/-- The client hangs up. -/
def hangUp (s : State) (how : End) : Option State :=
  if s.ended = none then some { s with ended := some how, ready := s.added } else none

/-- There is something for `recv` to return. -/
def State.readable (s : State) : Bool := ! s.bytes.isEmpty || (s.ended.isSome && ! s.closed)

/-- `addfd_to_epoll`: a descriptor that is readable already becomes ready. -/
def addfdToEpoll (s : State) : Option State :=
  if s.added then none else some { s with added := true, ready := s.readable }

/-- `epoll_wait`: the descriptor leaves the ready list, and is returned if it is readable. -/
def epollWait (s : State) : Option State :=
  if s.ready ∧ s.pc = .idle then
    some { s with ready := false, pc := if s.readable then .recv else .idle }
  else none

/-- `recv` with `ret = n > 0`: the bytes that it gives. -/
def recvBytes (s : State) (n : Nat) : Option (State × Bytes) :=
  if s.pc = .recv ∧ 0 < n ∧ n ≤ s.bytes.length ∧ n ≤ MAX_BUFFER_SIZE - 1 then
    some ({ s with bytes := s.bytes.drop n }, s.bytes.take n)
  else none

/-- `recv` without a byte: at the end of the client the descriptor is closed next, and `EAGAIN`
ends the loop. -/
def recvNone (s : State) : Option State :=
  if s.pc = .recv ∧ s.bytes = [] then
    some { s with pc := if s.ended.isSome then .close else .idle }
  else none

/-- `close(sockfd)`, which takes the descriptor from `epfd`. -/
def close (s : State) : Option State :=
  if s.pc = .close then some { s with pc := .idle, ready := false, closed := true } else none

inductive Event where
  | send (data : Bytes)
  | hangUp (how : End)
  | add
  | wait (readable : Bool)
  | recv (data : Bytes)
  | recvNone (ended : Bool)
  | close
  deriving DecidableEq, Repr

inductive Step : State → Event → State → Prop
  | send {s s' : State} {data : Bytes} (h : send s data = some s') : Step s (.send data) s'
  | hangUp {s s' : State} {how : End} (h : hangUp s how = some s') : Step s (.hangUp how) s'
  | add {s s' : State} (h : addfdToEpoll s = some s') : Step s .add s'
  | wait {s s' : State} (h : epollWait s = some s') : Step s (.wait s.readable) s'
  | recv {s s' : State} {n : Nat} {data : Bytes} (h : recvBytes s n = some (s', data)) :
      Step s (.recv data) s'
  | recvNone {s s' : State} (h : recvNone s = some s') : Step s (.recvNone s.ended.isSome) s'
  | close {s s' : State} (h : close s = some s') : Step s .close s'

end EpollBlock
end CFunction
