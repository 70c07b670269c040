import CFunction.Uart.ReadGps
import CFunction.Misc.CharArray
import CFunction.Time.Utc2btc

/-!
# NMEA sentences

The parsing half of `src/uart/read_gps.c`: what `parse_packet` and the two sentence parsers do
to a packet and to `mgps`. The buffer of a function is the stretch of memory from its argument
on, as far as it belongs to the packet, so that a byte in front of it or behind it has no value;
a loop that scans for a comma has no result when it leaves the buffer. A `double` or `float` is
its bits; the arithmetic on them is a parameter.

A packet lies in `rx_buf`, so that no `int` of this part can overflow. `print_gps` only prints.
-/

namespace CFunction
namespace Gps

open CString ReadGps

abbrev comma : UInt8 := ascii ','

/-- The floating-point operations and the conversions of a string that the parsers use. -/
structure FloatOps where
  /-- `atof` and `atoi` of a string. -/
  atof : Bytes → BitVec 64
  atoi : Bytes → Int
  /-- `(float)d`. -/
  narrow : BitVec 64 → BitVec 32
  /-- `d * 1.85` and `d * 60`. -/
  times185 : BitVec 64 → BitVec 64
  times60 : BitVec 64 → BitVec 64
  /-- `d - n` and `(int)d`. -/
  minus : BitVec 64 → Int → BitVec 64
  truncate : BitVec 64 → Int

/-- `gps_info_t` (`read_gps.c:333-351`). -/
structure GpsInfo where
  latitude : BitVec 64
  longitude : BitVec 64
  latitudeDegree : Int
  latitudeMinute : Int
  latitudeSecond : Int
  longitudeDegree : Int
  longitudeMinute : Int
  longitudeSecond : Int
  speed : BitVec 32
  direction : BitVec 32
  height : BitVec 32
  satellite : Int
  positionSn : UInt8
  positionEw : UInt8
  dateTm : Utc2btc.Tm
  dateDay : CharArray 16
  dateYear : CharArray 16

/-- `mgps`, `flag_send` and the table of `utc2btc`. -/
structure State where
  mgps : GpsInfo
  flagSend : Bool
  dateMday : List Int

/-- `memset(&mgps, 0, sizeof(mgps))` (`read_gps.c:700`). -/
def GpsInfo.zero : GpsInfo where
  latitude := 0
  longitude := 0
  latitudeDegree := 0
  latitudeMinute := 0
  latitudeSecond := 0
  longitudeDegree := 0
  longitudeMinute := 0
  longitudeSecond := 0
  speed := 0
  direction := 0
  height := 0
  satellite := 0
  positionSn := 0
  positionEw := 0
  dateTm := ⟨0, 0, 0, 0, 0, 0⟩
  dateDay := CharArray.zero 16
  dateYear := CharArray.zero 16

/-- Before the receive loop. -/
def State.init : State := ⟨GpsInfo.zero, false, Utc2btc.dateMday⟩

/-! ### Reading a buffer -/

/-- The string at `buf + i`. -/
def cstrAt (buf : Bytes) (i : Int) : Option Bytes :=
  if 0 ≤ i ∧ 0 ∈ buf.drop i.toNat then some (cstr (buf.drop i.toNat)) else none

/-- `while(buf[i++] != ',');`: the `i` after it. Every round reads at another index, so the
length of the buffer bounds the number of rounds. -/
def skipComma (buf : Bytes) : Nat → Int → Option Int
  | 0, _ => none
  | fuel + 1, i => do
    let c ← load buf i
    if c ≠ comma then skipComma buf fuel (i + 1) else some (i + 1)

/-- `if(buf[i] != ',') { .. }`, where the block sets members of `gps`. -/
def ifFilled (buf : Bytes) (i : Int) (gps : GpsInfo) (block : UInt8 → Option GpsInfo) :
    Option GpsInfo := do
  let c ← load buf i
  if c ≠ comma then block c else some gps

/-! ### `parse_gnrmc` -/

/-- `parse_gnrmc` (`read_gps.c:430-516`). -/
def parseGnrmc (fl : FloatOps) (gps : GpsInfo) (buf : Bytes) : Option GpsInfo := do
  let s ← cstrAt buf 0
  match strstr [ascii 'A', comma] s with
  | none => some gps
  | some strx => do
    let fuel := buf.length
    -- item <1>
    let gps ← ifFilled buf 0 gps fun _ => do
      let dateDay ← (CharArray.zero 16).copy s (toSize ((strx : Int) - 1))
      some { gps with dateDay := dateDay }
    -- item <3>
    let i : Int := (strx : Int) + 2
    let gps ← ifFilled buf i gps fun _ => do
      let t ← cstrAt buf i
      some { gps with latitude := fl.atof t }
    -- item <4>
    let i ← skipComma buf fuel i
    let gps ← ifFilled buf i gps fun c => some { gps with positionSn := c }
    -- item <5>
    let i ← skipComma buf fuel i
    let gps ← ifFilled buf i gps fun _ => do
      let t ← cstrAt buf i
      some { gps with longitude := fl.atof t }
    -- item <6>
    let i ← skipComma buf fuel i
    let gps ← ifFilled buf i gps fun c => some { gps with positionEw := c }
    -- item <7>
    let i ← skipComma buf fuel i
    let gps ← ifFilled buf i gps fun _ => do
      let t ← cstrAt buf i
      some { gps with speed := fl.narrow (fl.times185 (fl.atof t)) }
    -- item <8>
    let i ← skipComma buf fuel i
    let gps ← ifFilled buf i gps fun _ => do
      let t ← cstrAt buf i
      some { gps with direction := fl.narrow (fl.atof t) }
    -- item <9>
    let i ← skipComma buf fuel i
    ifFilled buf i gps fun _ => do
      let t ← cstrAt buf i
      let dateYear ← (CharArray.zero 16).copy t 6
      some { gps with dateYear := dateYear }

/-! ### `parse_gngga` -/

/-- `while(item < 5)` (`read_gps.c:526-530`): the `i` after it. -/
def scanItems (buf : Bytes) : Nat → Int → Nat → Option Int
  | 0, i, item => if item < 5 then none else some i
  | fuel + 1, i, item =>
    if item < 5 then do
      let c ← load buf i
      scanItems buf fuel (i + 1) (if c = comma then item + 1 else item)
    else some i

/-- `parse_gngga` (`read_gps.c:520-551`). -/
def parseGngga (fl : FloatOps) (gps : GpsInfo) (buf : Bytes) : Option GpsInfo := do
  -- find item <6>
  let i ← scanItems buf buf.length 0 0
  let c ← load buf i
  if c = ascii '0' then some gps
  else do
    let fuel := buf.length
    -- item <7>
    let i ← skipComma buf fuel i
    let gps ← ifFilled buf i gps fun _ => do
      let t ← cstrAt buf i
      some { gps with satellite := fl.atoi t }
    -- item <8>
    let i ← skipComma buf fuel i
    -- item <9>
    let i ← skipComma buf fuel i
    ifFilled buf i gps fun _ => do
      let t ← cstrAt buf i
      some { gps with height := fl.narrow (fl.atof t) }

/-! ### `fix_gps_info` -/

/-- The value of a `char`. -/
def charValue (c : UInt8) : Int := if c < 128 then c.toNat else (c.toNat : Int) - 256

/-- `(pbuf[k] - '0')*10 + (pbuf[k+1] - '0')`. -/
def twoDigits (a : CharArray 16) (k : Nat) : Int :=
  (charValue (a.bytes.getD k 0) - 48) * 10 + (charValue (a.bytes.getD (k + 1) 0) - 48)

/-- Degrees, minutes and seconds of `ddmm.mmmm` (`read_gps.c:403-406` and `408-411`). -/
def splitDegrees (fl : FloatOps) (d : BitVec 64) : Int × Int × Int :=
  let degree := (fl.truncate d).tdiv 100
  let dd := fl.minus d (degree * 100)
  let minute := fl.truncate dd
  (degree, minute, fl.truncate (fl.times60 (fl.minus dd minute)))

/-- `fix_gps_info` (`read_gps.c:398-426`). -/
def fixGpsInfo (fl : FloatOps) (st : State) : Option State := do
  let gps := st.mgps
  let (degree, minute, second) := splitDegrees fl gps.latitude
  let gps := { gps with
    latitudeDegree := degree, latitudeMinute := minute, latitudeSecond := second }
  let (degree, minute, second) := splitDegrees fl gps.longitude
  let gps := { gps with
    longitudeDegree := degree, longitudeMinute := minute, longitudeSecond := second }
  let day ← gps.dateDay.read
  if day = [] then some { st with mgps := gps }
  else do
    let year ← gps.dateYear.read
    if year = [] then some { st with mgps := gps }
    else do
      let tm : Utc2btc.Tm := {
        tmHour := twoDigits gps.dateDay 0
        tmMin := twoDigits gps.dateDay 2
        tmSec := twoDigits gps.dateDay 4
        tmMday := twoDigits gps.dateYear 0
        tmMon := twoDigits gps.dateYear 2 - 1
        tmYear := twoDigits gps.dateYear 4 + 100 }
      let (dateMday, tm) ← Utc2btc.utc2btc st.dateMday tm
      some { st with mgps := { gps with dateTm := tm }, dateMday := dateMday }

/-! ### `parse_packet` -/

/-- `bcc(buf + from, len)` (`read_gps.c:554-564`). -/
def bccAt (buf : Bytes) (start : Nat) (len : Int) : Option UInt8 :=
  if start + len.toNat ≤ buf.length then
    some (((buf.drop start).take len.toNat).foldl (fun crc b => crc ^^^ b) 0)
  else none

/-- `parse_packet` up to the calls of the sentence parsers (`read_gps.c:566-588`): the buffer,
and the parser that gets it from `buf + 7` on. -/
def packetTest (buf : Bytes) : Option (Bytes × Option Sentence) := do
  let len ← strlen buf
  let c ← load buf ((len : Int) - 3)
  if c ≠ ascii '*' then some (buf, none)
  else do
    let crc ← bccAt buf 1 ((len : Int) - 4)
    let crcStr := [hexStr.getD ((crc.toNat &&& 0xF0) >>> 4) 0, hexStr.getD (crc.toNat &&& 0x0F) 0]
    if differ tolower crcStr ((buf.drop (len - 2)).take 2) then some (buf, none)
    else do
      let buf ← store buf ((len : Int) - 3) 0
      let s ← cstrAt buf 1
      if strncmpEq (text "GNRMC") s 5 then some (buf, some .gnrmc)
      else if strncmpEq (text "GNGGA") s 5 then some (buf, some .gngga)
      else some (buf, none)

/-- `parse_packet` (`read_gps.c:566-599`). -/
def parsePacket (fl : FloatOps) (st : State) (buf : Bytes) : Option (Bytes × State) := do
  let (buf, sentence) ← packetTest buf
  match sentence with
  | none => some (buf, st)
  | some .gnrmc => do
    let gps ← parseGnrmc fl st.mgps (buf.drop 7)
    some (buf, { st with mgps := gps })
  | some .gngga => do
    let gps ← parseGngga fl st.mgps (buf.drop 7)
    let st := { st with mgps := gps }
    if st.flagSend then do
      let st ← fixGpsInfo fl st
      some (buf, { st with flagSend := false })
    else some (buf, st)

end Gps
end CFunction
