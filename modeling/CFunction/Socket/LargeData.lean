import CFunction.Misc.CString
import CFunction.Misc.Transfer

/-!
# The large-data client

`socket/largedata/client1.c`: the loop that writes the buffer `p` to a non-blocking socket. What a
`write` returns is given. `sum` and `nleft` stay below the size of the buffer, which is an `int`.
-/

namespace CFunction
namespace LargeData

open CString Transfer

/-- What `write` returns, or the `errno` it fails with. `EAGAIN` and `EWOULDBLOCK` are one. -/
inductive Outcome where
  | ret (n : Nat)
  | EINTR
  | EAGAIN
  | fault
  deriving DecidableEq, Repr

/-- What a `write` accepts; `none` when it fails. -/
def Outcome.taken : Outcome → Option Nat
  | .ret n => some n
  | _ => none

/-- The variables of the loop, and whether it has been left by `break`. -/
structure Client where
  sum : Int
  nleft : Int
  broken : Bool
  deriving DecidableEq, Repr

/-- In front of the loop (`client1.c:58`). -/
def Client.start (p : Bytes) : Client := ⟨0, p.length, false⟩

/-- `while(nleft > 0)`. -/
def Client.sending (c : Client) : Bool := !c.broken && decide (c.nleft > 0)

/-- The bytes that `write(fd, p, nleft)` offers. -/
def Client.offered (c : Client) (p : Bytes) : Bytes := p.take c.nleft.toNat

/-- The rest of an iteration (`client1.c:69-85`). -/
def Client.onWrite (c : Client) : Outcome → Client
  | .ret n => { c with sum := c.sum + n, nleft := c.nleft - n }
  | .EINTR => c
  | .EAGAIN => c
  | .fault => { c with broken := true }

/-- An iteration. `write` accepts at most what it is offered. -/
inductive Step (p : Bytes) : Client → Offer UInt8 → Client → Prop
  | write {c : Client} (outcome : Outcome) (more : c.sending = true)
      (fits : ∀ n, outcome = .ret n → n ≤ (c.offered p).length) :
      Step p c ⟨c.offered p, outcome.taken⟩ (c.onWrite outcome)

end LargeData
end CFunction
