import CFunction.Lte.Mat
import CFunction.Lte.Muart

/-!
# AT commands over the uart

What `send_at_cmd` calls between the command and the search: the writes of `muart_write` and the
reads of `muart_read_nbytes`.
-/

namespace CFunction
namespace Mat

open CString Transfer Muart

/-- The two calls of `send_at_cmd` (`mat.c:57-66`) with what they did. When nothing can be written
nothing is read; the bytes that are read then make no difference. -/
def exchange (m : Muart) (fuel timeout : Nat) (atCmd : Bytes) :
    Option (Exchange × List (Offer UInt8) × List (Fetch UInt8)) := do
  let buf := List.replicate AT_MAX_LEN 0
  let (written, offers) ← muartWrite m fuel atCmd
  let (nread, buf, fetches) ← muartReadNbytes m buf AT_MAX_LEN timeout
  let reply := if nread < 0 then none else some (buf.take nread.toNat)
  some (⟨written, reply⟩, offers, fetches)

end Mat
end CFunction
