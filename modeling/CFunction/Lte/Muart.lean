import CFunction.Uart.Dreadn

/-!
# The uart

`LTE/at/muart.c`: the reads and writes of an open uart.
-/

namespace CFunction

open CString Transfer

/-- `muart_t` (`muart.h:10-19`), with what `fd` stands for. -/
structure Muart where
  fd : Tty
  writeMaxBytesOnce : Int

namespace Muart

/-- `muart_read_timeout` (`muart.c:222-245`), the `k`-th time. -/
def muartReadTimeout (m : Muart) (timeout k nbytes : Nat) : Option Bytes :=
  if timeout ≠ 0 ∧ m.fd.select k ≤ 0 then none else m.fd.read k nbytes

/-- `muart_read_nbytes` (`muart.c:255-275`). Its loop is that of `dreadn`. -/
def muartReadNbytes (m : Muart) (buf : Bytes) (nbytes timeout : Nat) :
    Option (Int × Bytes × List (Fetch UInt8)) :=
  ReadGps.dreadnLoop (muartReadTimeout m timeout) nbytes nbytes nbytes buf 0 []

/-- The loop of `muart_write` (`muart.c:282-300`), for at most `fuel` rounds: what it returns, and
the writes that it made. -/
def writeLoop (m : Muart) (buf : Bytes) (nbytes : Int) :
    Nat → Int → Int → List (Offer UInt8) → Option (Int × List (Offer UInt8))
  | 0, _, _, _ => none
  | fuel + 1, nleft, npos, offers =>
    let maxWriteOnce := m.writeMaxBytesOnce
    let nwrite := if nleft > maxWriteOnce then maxWriteOnce else nleft
    let data := (buf.drop npos.toNat).take nwrite.toNat
    let ret := m.fd.write offers.length nwrite.toNat
    let offers := offers ++ [⟨data, ret⟩]
    match ret with
    | none => if nleft = nbytes then some (-1, offers) else some (npos, offers)
    | some ret =>
      let nleft := nleft - ret
      let npos := npos + ret
      if nleft > 0 then writeLoop m buf nbytes fuel nleft npos offers else some (npos, offers)

/-- `muart_write` (`muart.c:277-303`) of the whole of `buf`. -/
def muartWrite (m : Muart) (fuel : Nat) (buf : Bytes) : Option (Int × List (Offer UInt8)) :=
  writeLoop m buf buf.length fuel buf.length 0 []

end Muart
end CFunction
