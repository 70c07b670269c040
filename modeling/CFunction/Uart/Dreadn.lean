import CFunction.Misc.CString
import CFunction.Misc.Transfer

/-!
# Timed reads

`dread` and `dreadn` of `src/uart/read_gps.c`, over a descriptor whose calls may fail, fall short
or time out at any point. `errno` is left out: it is only printed.
-/

namespace CFunction

open CString Transfer

/-- What `write`, `select` and `read` of a descriptor do, each at its `k`-th call: how many of
`size` bytes are accepted, how many descriptors are ready, and what is delivered (nothing at the
end of the file). `write` and `read` may fail. -/
structure Tty where
  write : (k size : Nat) → Option Nat
  select : (k : Nat) → Int
  read : (k nbytes : Nat) → Option Bytes
  write_le : ∀ k size n, write k size = some n → n ≤ size
  read_le : ∀ k nbytes chunk, read k nbytes = some chunk → chunk.length ≤ nbytes

namespace ReadGps

/-- The loop of `dreadn` (`read_gps.c:309-324`) around the timed read `timed`, for at most `fuel`
rounds. `buf` stands on the byte `off` of the caller's array, which is returned with the number
of bytes and the calls that were made. No call delivers more than `nleft`. -/
def dreadnLoop (timed : Nat → Nat → Option Bytes) (nbytes : Nat) :
    Nat → Nat → Bytes → Nat → List (Fetch UInt8) → Option (Int × Bytes × List (Fetch UInt8))
  | 0, nleft, buf, _, fetches =>
    if nleft > 0 then none else some ((nbytes - nleft : Nat), buf, fetches)
  | fuel + 1, nleft, buf, off, fetches =>
    if nleft > 0 then
      let nread := timed fetches.length nleft
      let fetches := fetches ++ [⟨nleft, nread⟩]
      match nread with
      | none =>
        if nleft = nbytes then some (-1, buf, fetches)
        else some ((nbytes - nleft : Nat), buf, fetches)
      | some chunk =>
        if chunk.length = 0 then some ((nbytes - nleft : Nat), buf, fetches)
        else do
          let buf ← overwrite buf off chunk
          dreadnLoop timed nbytes fuel (nleft - chunk.length) buf (off + chunk.length) fetches
    else some ((nbytes - nleft : Nat), buf, fetches)

/-- `dread` (`read_gps.c:274-292`). -/
def dread (fd : Tty) (k nbytes : Nat) : Option Bytes :=
  if fd.select k ≤ 0 then none else fd.read k nbytes

/-- `dreadn` (`read_gps.c:303-327`). -/
def dreadn (fd : Tty) (buf : Bytes) (nbytes : Nat) :
    Option (Int × Bytes × List (Fetch UInt8)) :=
  dreadnLoop (dread fd) nbytes nbytes nbytes buf 0 []

end ReadGps
end CFunction
