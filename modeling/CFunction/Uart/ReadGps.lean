import CFunction.Misc.ByteMemory

/-!
# NMEA packets

The constants of `src/uart/read_gps.c` and the packet test of `parse_packet`. Address 0 of the
memory is `rx_buf[0]`.
-/

namespace CFunction
namespace ReadGps

open CString ByteMemory

abbrev cr : UInt8 := ascii '\r'
abbrev lf : UInt8 := ascii '\n'
abbrev dollar : UInt8 := ascii '$'

/-- `BUF_SIZE` and `MIN_SIZE` (`read_gps.c:330-331`). -/
def BUF_SIZE : Nat := 2048
def MIN_SIZE : Int := 64

/-! ### `parse_packet` -/

/-- `hex_str` (`read_gps.c:553`). -/
def hexStr : Bytes :=
  ['0', '1', '2', '3', '4', '5', '6', '7', '8', '9', 'A', 'B', 'C', 'D', 'E', 'F'].map ascii

/-- `bcc` (`read_gps.c:554-564`). -/
def bcc (mem : ByteMemory) (buf len : Int) : UInt8 :=
  (mem.slice buf len.toNat).foldl (fun crc b => crc ^^^ b) 0

def tolower (c : UInt8) : UInt8 := if ascii 'A' ≤ c ∧ c ≤ ascii 'Z' then c + 32 else c

/-- `strncmp` (with `fold = id`) and `strncasecmp` (with `tolower`) of two stretches of the
same length: whether they differ before a common NUL. -/
def differ (fold : UInt8 → UInt8) : Bytes → Bytes → Bool
  | a :: as, b :: bs =>
    if fold a ≠ fold b then true else if a = 0 then false else differ fold as bs
  | _, _ => false

/-- The parsers that `parse_packet` calls. -/
inductive Sentence
  | gnrmc
  | gngga
  deriving DecidableEq, Repr

/-- What a call of `parse_packet` shows: the string it prints, and the sentence parser to which
it passes the packet. -/
structure Packet where
  text : Bytes
  sentence : Option Sentence
  deriving DecidableEq, Repr

/-- `parse_packet` up to the calls of the sentence parsers (`read_gps.c:566-588`): `buf[len-3]` may
lie in front of the string. -/
def packetTest (mem : ByteMemory) (buf : Int) : Option (ByteMemory × Packet) := do
  let text ← mem.cstrAt BUF_SIZE buf
  let len : Int := text.length
  if mem (buf + (len - 3)) ≠ ascii '*' then some (mem, ⟨text, none⟩)
  else
    let crc := (bcc mem (buf + 1) (len - 4)).toNat
    let crcStr := [hexStr.getD ((crc &&& 0xF0) >>> 4) 0, hexStr.getD (crc &&& 0x0F) 0]
    if differ tolower crcStr (mem.slice (buf + (len - 2)) 2) then some (mem, ⟨text, none⟩)
    else
      let mem := mem.set (buf + (len - 3)) 0
      let head := mem.slice (buf + 1) 5
      if !differ id (['G', 'N', 'R', 'M', 'C'].map ascii) head then
        some (mem, ⟨text, some .gnrmc⟩)
      else if !differ id (['G', 'N', 'G', 'G', 'A'].map ascii) head then
        some (mem, ⟨text, some .gngga⟩)
      else some (mem, ⟨text, none⟩)

end ReadGps
end CFunction
