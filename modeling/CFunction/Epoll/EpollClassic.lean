import CFunction.Misc.CString
import Mathlib.Logic.Function.Basic

/-!
# The event loop of `epoll_classic`

The loop reads a client into `line` and writes `line` to a client in two separate events. The
clients are their descriptors, and a connected client is registered for one kind of event.
-/

namespace CFunction
namespace EpollClassic

open CString

def MAXLINE : Nat := 512

/-- What a descriptor is registered for, with `EPOLLET`. -/
inductive Interest where
  | EPOLLIN
  | EPOLLOUT
  deriving DecidableEq, Repr

/-- The variables of `main` which outlive an event, and the registrations. -/
structure Server where
  line : Bytes
  nbytes : Nat
  registered : Nat → Option Interest

/-- `epoll_ctl` with `EPOLL_CTL_ADD` and `EPOLL_CTL_MOD`. -/
def Server.epollCtl (s : Server) (fd : Nat) (interest : Interest) : Server :=
  { s with registered := Function.update s.registered fd (some interest) }

/-- The `read` calls of one event that return bytes; the next one returns `EAGAIN`. -/
def Server.readLoop (s : Server) : List Bytes → Option Server
  | [] => some s
  | data :: reads => do
    let line ← overwrite s.line s.nbytes data
    Server.readLoop { s with line := line, nbytes := s.nbytes + data.length } reads

/-- The branch of an `EPOLLIN` event of a client. -/
def Server.onEpollin (s : Server) (sockfd : Nat) (reads : List Bytes) : Option Server := do
  let s := { s with nbytes := 0, line := List.replicate MAXLINE 0 }
  let s ← s.readLoop reads
  some (s.epollCtl sockfd .EPOLLOUT)

/-! ### The reads of one event

`onEpollin` is the branch of a client whose bytes all fit in `line`. Here the reads are those of any
socket. -/

/-- What comes behind the bytes that are pending on a socket. -/
inductive Ending where
  /-- Nothing yet. -/
  | quiet
  /-- The peer has closed the connection. -/
  | closed
  | failed
  deriving DecidableEq, Repr

/-- A client's socket. The `k`-th `read` delivers at most `chunk k` bytes, but at least one. -/
structure Socket where
  pending : Bytes
  chunk : Nat → Nat
  ending : Ending

/-- What `read` returns: bytes, whose number is the result, or the `errno` it fails with. -/
inductive ReadResult where
  | bytes (data : Bytes)
  | EAGAIN
  | error
  deriving DecidableEq, Repr

/-- What `read` returns when no bytes are pending. -/
def Ending.result : Ending → ReadResult
  | .quiet => .EAGAIN
  | .closed => .bytes []
  | .failed => .error

/-- The `k`-th `read`, of `size` bytes. -/
def Socket.read (sock : Socket) (k size : Nat) : ReadResult :=
  if size = 0 then .bytes []
  else if sock.pending = [] then sock.ending.result
  else .bytes (sock.pending.take (min size (max 1 (sock.chunk k))))

/-- `close`, which ends the registration too. -/
def Server.close (s : Server) (fd : Nat) : Server :=
  { s with registered := Function.update s.registered fd none }

/-- `while(1)` of an `EPOLLIN` event (`epoll_classic.c:122-150`) for at most `fuel` rounds, with
the results of its reads. -/
def Server.epollinLoop (sockfd : Nat) :
    Nat → Server → Socket → List ReadResult → Option (Server × List ReadResult)
  | 0, _, _, _ => none
  | fuel + 1, s, sock, results =>
    let r := sock.read results.length (MAXLINE - 1 - s.nbytes)
    let results := results ++ [r]
    match r with
    | .bytes [] => some (s.close sockfd, results)
    | .bytes data => do
      let line ← overwrite s.line s.nbytes data
      Server.epollinLoop sockfd fuel { s with line := line, nbytes := s.nbytes + data.length }
        { sock with pending := sock.pending.drop data.length } results
    | .EAGAIN => some (s.epollCtl sockfd .EPOLLOUT, results)
    | .error => some (s.close sockfd, results)

/-- The branch of an `EPOLLIN` event of a client (`epoll_classic.c:114-151`). -/
def Server.epollin (s : Server) (sockfd fuel : Nat) (sock : Socket) :
    Option (Server × List ReadResult) :=
  Server.epollinLoop sockfd fuel { s with nbytes := 0, line := List.replicate MAXLINE 0 } sock []

/-- The branch of an `EPOLLOUT` event of a client, and the bytes which `write` accepts. -/
def Server.onEpollout (s : Server) (sockfd : Nat) : Server × Bytes :=
  (s.epollCtl sockfd .EPOLLIN, s.line.take s.nbytes)

/-- What the loop processes: a new client, or an event of a client. -/
inductive Event where
  | accept (connfd : Nat)
  | epollin (sockfd : Nat) (reads : List Bytes)
  | epollout (sockfd : Nat) (written : Bytes)
  deriving DecidableEq, Repr

/-- An event of a client comes when the client is registered for it. A `read` that returns bytes
returns at least one, and less than 511 bytes are pending. -/
inductive Step : Server → Event → Server → Prop
  | accept {s : Server} {connfd : Nat} (new : s.registered connfd = none) :
      Step s (.accept connfd) (s.epollCtl connfd .EPOLLIN)
  | epollin {s s' : Server} {sockfd : Nat} {reads : List Bytes}
      (ready : s.registered sockfd = some .EPOLLIN) (nonempty : ∀ data ∈ reads, data ≠ [])
      (pending : reads.flatten.length < MAXLINE - 1) (h : s.onEpollin sockfd reads = some s') :
      Step s (.epollin sockfd reads) s'
  | epollout {s : Server} {sockfd : Nat} (ready : s.registered sockfd = some .EPOLLOUT) :
      Step s (.epollout sockfd (s.onEpollout sockfd).2) (s.onEpollout sockfd).1

/-- Before the first event: no client, and `line` and `nbytes` are not set. -/
def Server.init (line : Bytes) (nbytes : Nat) : Server := ⟨line, nbytes, fun _ => none⟩

end EpollClassic
end CFunction
