import CFunction.Misc.Runs
import CFunction.Uart.GpsInfo

/-!
# NMEA receiver

The receive loop of `main` in `src/uart/read_gps.c`, the scanner `parse_buf` and `parse_packet`
with the sentence parsers, which read on in `rx_buf` where a packet has too few columns. The
strings that `parse_packet` prints are kept in the order in which it gets them.

No `int` of this part can overflow: the positions stay within `rx_buf`.
-/

namespace CFunction
namespace ReadGps

open CString ByteMemory

/-! ### `parse_packet` -/

/-- The operations on floating-point numbers, and between which calls of `parse_packet` the timer
sends `SIGALRM`: in front of the one with this number. -/
structure Env where
  fl : Gps.FloatOps
  alarm : Nat → Bool

/-- The globals of the program, and how often `parse_packet` has been called. -/
structure Globals where
  gps : Gps.State
  calls : Nat

def Globals.init : Globals := ⟨Gps.State.init, 0⟩

/-- `itmer_func` (`read_gps.c:628-634`), if the timer has sent its signal. -/
def Globals.itmerFunc (env : Env) (g : Globals) : Gps.State :=
  if env.alarm g.calls then { g.gps with flagSend := true } else g.gps

/-- `rx_buf` from the address `a` on. -/
def rxFrom (mem : ByteMemory) (a : Int) : Bytes := mem.slice a ((BUF_SIZE : Int) - a).toNat

/-- `parse_packet` (`read_gps.c:566-599`). A sentence parser that writes behind a date field or
leaves `rx_buf` has no result. -/
def parsePacket (env : Env) (g : Globals) (mem : ByteMemory) (buf : Int) :
    Option (Globals × ByteMemory × Packet) := do
  let (mem, packet) ← packetTest mem buf
  let st := g.itmerFunc env
  let calls := g.calls + 1
  match packet.sentence with
  | none => some (⟨st, calls⟩, mem, packet)
  | some .gnrmc => do
    let gps ← Gps.parseGnrmc env.fl st.mgps (rxFrom mem (buf + 7))
    some (⟨{ st with mgps := gps }, calls⟩, mem, packet)
  | some .gngga => do
    let gps ← Gps.parseGngga env.fl st.mgps (rxFrom mem (buf + 7))
    let st := { st with mgps := gps }
    if st.flagSend then do
      let st ← Gps.fixGpsInfo env.fl st
      some (⟨{ st with flagSend := false }, calls⟩, mem, packet)
    else some (⟨st, calls⟩, mem, packet)

/-! ### `parse_buf` -/

/-- The loop that looks for `$` (`read_gps.c:604-606`), for at most `fuel` rounds. -/
def findDollar (mem : ByteMemory) (buf len : Int) : Nat → Int → Int
  | 0, i => i
  | fuel + 1, i =>
    if mem (buf + i) ≠ dollar ∧ i < len then findDollar mem buf len fuel (i + 1) else i

/-- The loop over the rest of the buffer (`read_gps.c:612-622`), for at most `fuel` rounds:
the globals and the memory it leaves, `istart`, and the packets handed on. -/
def splitLoop (env : Env) (buf len : Int) : Nat → Globals → ByteMemory → Int → Int →
    List Packet → Option (Globals × ByteMemory × Int × List Packet)
  | 0, g, mem, i, istart, out => if i < len then none else some (g, mem, istart, out)
  | fuel + 1, g, mem, i, istart, out =>
    if i < len then
      if mem (buf + i) = cr then do
        let (g, mem, packet) ← parsePacket env g (mem.set (buf + i) 0) (buf + istart)
        let i := i + 1
        -- the `i++` of the `for` steps over the byte that `istart` stands on
        if i < len ∧ mem (buf + i) = lf then
          splitLoop env buf len fuel g mem (i + 1 + 1) (i + 1) (out ++ [packet])
        else splitLoop env buf len fuel g mem (i + 1) i (out ++ [packet])
      else splitLoop env buf len fuel g mem (i + 1) istart out
    else some (g, mem, istart, out)

/-- `parse_buf` (`read_gps.c:600-625`). -/
def parseBuf (env : Env) (g : Globals) (mem : ByteMemory) (buf len : Int) :
    Option (Globals × ByteMemory × Int × List Packet) :=
  let i := findDollar mem buf len len.toNat 0
  if len ≤ i then some (g, mem, len, [])
  else splitLoop env buf len (len - i).toNat g mem i i []

/-! ### `parse_buf` with any consumer

What `parse_buf` returns depends on `parse_packet` through the bytes that it leaves in the buffer
only. Here the consumer, which has a state of its own, is a parameter, and each call of it is kept
with its place. -/

/-- A call of the consumer: the string from `start` on, which the NUL at `stop` closes, both counted
from `buf`, and what the consumer gives. -/
structure Delivery (α : Type) where
  start : Int
  stop : Int
  result : α

/-- The loop over the rest of the buffer (`read_gps.c:612-622`). -/
def splitLoopWith {σ α : Type} (consume : σ → ByteMemory → Int → Option (σ × ByteMemory × α))
    (buf len : Int) : Nat → σ → ByteMemory → Int → Int → List (Delivery α) →
      Option (σ × ByteMemory × Int × List (Delivery α))
  | 0, s, mem, i, istart, out => if i < len then none else some (s, mem, istart, out)
  | fuel + 1, s, mem, i, istart, out =>
    if i < len then
      if mem (buf + i) = cr then do
        let (s, mem, result) ← consume s (mem.set (buf + i) 0) (buf + istart)
        let out := out ++ [⟨istart, i, result⟩]
        let i := i + 1
        if i < len ∧ mem (buf + i) = lf then
          splitLoopWith consume buf len fuel s mem (i + 1 + 1) (i + 1) out
        else splitLoopWith consume buf len fuel s mem (i + 1) i out
      else splitLoopWith consume buf len fuel s mem (i + 1) istart out
    else some (s, mem, istart, out)

/-- `parse_buf` (`read_gps.c:600-625`). -/
def parseBufWith {σ α : Type} (consume : σ → ByteMemory → Int → Option (σ × ByteMemory × α))
    (s : σ) (mem : ByteMemory) (buf len : Int) :
    Option (σ × ByteMemory × Int × List (Delivery α)) :=
  let i := findDollar mem buf len len.toNat 0
  if len ≤ i then some (s, mem, len, [])
  else splitLoopWith consume buf len (len - i).toNat s mem i i []

/-! ### The receive loop -/

/-- The variables of the loop, the globals, and the packets handed to `parse_packet` so far. -/
structure Receiver where
  rxBuf : ByteMemory
  readPos : Int
  writePos : Int
  numErrors : Int
  globals : Globals
  handed : List Packet

/-- Before the loop. The buffer is not initialised. -/
def Receiver.init (mem : ByteMemory) : Receiver := ⟨mem, 0, 0, 0, Globals.init, []⟩

/-- What `dread` does: it times out, fails otherwise (and if the uart is restarted, that works or
not), or delivers bytes. -/
inductive ReadResult
  | etime
  | error (restarted : Bool)
  | bytes (chunk : Bytes)
  deriving DecidableEq, Repr

def Receiver.left (st : Receiver) : Int := ((BUF_SIZE - 1 : Nat) : Int) - st.writePos

/-- Moving the unparsed bytes to the front (`read_gps.c:706-712`). -/
def Receiver.compact (st : Receiver) : Option Receiver :=
  if st.left < MIN_SIZE then do
    let mem ← st.rxBuf.memcpy 0 st.readPos (st.writePos - st.readPos)
    some { st with rxBuf := mem, readPos := 0, writePos := st.writePos - st.readPos }
  else some st

/-- What follows a successful `dread` (`read_gps.c:732-739`). -/
def Receiver.accept (env : Env) (st : Receiver) (chunk : Bytes) : Option Receiver := do
  let mem := st.rxBuf.store st.writePos chunk
  let mem := mem.set (st.writePos + chunk.length) 0
  let writePos := st.writePos + chunk.length
  let (g, mem, parseLen, packets) ← parseBuf env st.globals mem st.readPos (writePos - st.readPos)
  some { st with
    rxBuf := mem
    readPos := st.readPos + parseLen
    writePos := writePos
    globals := g
    handed := st.handed ++ packets }

/-- What follows `dread` (`read_gps.c:714-739`). It delivers no more than `left` bytes; the
process exits when the uart does not restart. -/
def Receiver.handle (env : Env) (st : Receiver) : ReadResult → Option Receiver
  | .etime => some st
  | .error restarted =>
    if 5 < st.numErrors + 1 then
      if restarted then some { st with numErrors := 0 } else none
    else some { st with numErrors := st.numErrors + 1 }
  | .bytes chunk => if (chunk.length : Int) ≤ st.left then st.accept env chunk else none

/-- One round of `while(1)` (`read_gps.c:705-740`). -/
def Receiver.round (env : Env) (st : Receiver) (result : ReadResult) : Option Receiver := do
  let st ← st.compact
  st.handle env result

/-- A round as a step relation, labelled by what `dread` did. -/
def Receiver.Step (env : Env) (st : Receiver) (result : ReadResult) (st' : Receiver) : Prop :=
  st.round env result = some st'

/-! ### Overlapping moves -/

/-- `compact` with a `memcpy` that copies forward where the two ranges overlap, as it is when the
unparsed bytes are more than the parsed ones in front of them. -/
def Receiver.compactForward (st : Receiver) : Receiver :=
  if st.left < MIN_SIZE then
    { st with
      rxBuf := st.rxBuf.store 0 (st.rxBuf.slice st.readPos (st.writePos - st.readPos).toNat)
      readPos := 0
      writePos := st.writePos - st.readPos }
  else st

/-- The `left` that the next round passes to `dread` (`read_gps.c:706-714`). -/
def Receiver.room (st : Receiver) : Int := st.compactForward.left

/-- A round with such a `memcpy`. -/
def Receiver.StepForward (env : Env) (st : Receiver) (result : ReadResult) (st' : Receiver) :
    Prop :=
  st.compactForward.handle env result = some st'

end ReadGps
end CFunction
