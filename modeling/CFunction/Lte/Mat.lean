import CFunction.Misc.CharArray
import CFunction.Misc.Runs

/-!
# The AT command layer

`LTE/at/mat.c` above the uart: one exchange of a command and a reply is what `muart_write`
returns and what `muart_read_nbytes` stores. A check function returns its code; those that fill
in `msim_t` return it too.
-/

namespace CFunction
namespace Mat

open CString

def AT_MAX_LEN : Nat := 64

/-! ### `msim_t` (`mat.h:6-18`) -/

abbrev SIM_ZERO : Int := 0
abbrev SIM_INIT : Int := 1
abbrev SIM_READY : Int := 2
abbrev SIM_SIGNAL : Int := 3
abbrev SIM_REGISTER : Int := 4

structure Msim where
  state : Int
  signal : Int
  operator : CharArray 16
  deriving DecidableEq

/-- `msim_state` (`mat.c:10-16`). -/
def MSIM_STATE : List Bytes :=
  [text "SIM_ZERO", text "SIM_INIT[AT]", text "SIM_READY[AT+CPIN?]", text "SIM_SIGNAL[AT+CSQ]",
    text "SIM_REGISTER[AT+CREG?,AT+COPS?]"]

/-- `mat_uart_init` (`mat.c:18-38`) for a non-`NULL` `mat`, with what `muart_open` and
`muart_setup` return. -/
def matUartInit (opened setup : Int) : Msim × Int :=
  let ms : Msim := ⟨0, 0, .zero 16⟩
  if opened < 0 then (ms, -1)
  else if setup < 0 then (ms, -1)
  else ({ ms with state := SIM_ZERO }, 0)

/-! ### One exchange -/

/-- What `muart_write` returns, and what `muart_read_nbytes` stores (`none` when it returns
`-1`). -/
structure Exchange where
  written : Int
  reply : Option Bytes
  deriving DecidableEq, Repr

/-- The uart and the modem behind it, during one call. -/
abbrev Modem := Bytes → Exchange

/-- `strstr(buf, pat)` in a `char` array, which stops at the first match; without one it goes on up
to a NUL. -/
def strstrIn (buf pat : Bytes) : Option (Option Nat) :=
  match strstr pat (cstr buf) with
  | some i => some (some i)
  | none => if 0 ∈ buf then some none else none

/-- `send_at_cmd` (`mat.c:47-84`); `msg` is `none` for `NULL` and otherwise the caller's array,
which is returned with the code. -/
def sendAtCmd (modem : Modem) (atCmd expect : Bytes) (msg : Option Bytes) (msgSize : Int) :
    Option (Int × Option Bytes) :=
  let buf := List.replicate AT_MAX_LEN 0
  if (modem atCmd).written < 0 then some (-1, msg)
  else match (modem atCmd).reply with
  | none => some (-1, msg)
  | some [] => some (-1, msg)
  | some (b :: reply) => do
    let buf ← overwrite buf 0 (b :: reply)
    let found ← strstrIn buf expect
    if found.isNone then some (-1, msg)
    else match msg with
    | none => some (0, none)
    | some msg => do
      let nbytes : Int := AT_MAX_LEN
      let buf ← store buf (nbytes - 1) 0
      if msgSize > 0 then do
        let nbytes := if msgSize > nbytes then nbytes else msgSize
        let msg ← strncpy msg (cstr buf) nbytes.toNat
        some (0, some msg)
      else some (0, some msg)

/-! ### The checks -/

/-- `check_at_ok` (`mat.c:86-97`). -/
def checkAtOk (modem : Modem) : Option Int := do
  let (ret, _) ← sendAtCmd modem (text "AT\r") (text "OK") none 0
  if ret ≠ 0 then some (-1) else some 0

/-- `check_sim_ready` (`mat.c:99-110`). -/
def checkSimReady (modem : Modem) : Option Int := do
  let (ret, _) ← sendAtCmd modem (text "AT+CPIN?\r") (text "READY") none 0
  if ret ≠ 0 then some ret else some 0

/-- A command whose reply is copied to a local `buf[AT_MAX_LEN]`, in which `buf[63] = 0`. -/
def askFor (modem : Modem) (atCmd expect : Bytes) : Option (Int × Bytes) := do
  let buf := List.replicate AT_MAX_LEN 0
  match ← sendAtCmd modem atCmd expect (some buf) AT_MAX_LEN with
  | (_, none) => none
  | (ret, some buf) => if ret < 0 then some (ret, buf) else do some (ret, ← store buf 63 0)

/-- The value of a decimal digit, and other numbers for other characters. Whether `char` is
signed makes no difference to the tests for `0` to `9`. -/
def digitValue (c : UInt8) : Int := c.toNat - (ascii '0').toNat

/-- The digits in front of the comma at `i` (`mat.c:127-134`). -/
def readSignal (buf : Bytes) (i : Int) : Option Int := do
  let signal : Int := 0
  let tmp := digitValue (← load buf (i - 1))
  let signal := if tmp ≥ 0 ∧ tmp ≤ 9 then tmp else signal
  let tmp := digitValue (← load buf (i - 2))
  let signal := if tmp ≥ 0 ∧ tmp ≤ 9 then signal + tmp * 10 else signal
  some signal

/-- The loop over the string in `buf` (`mat.c:125-137`), with `rounds` characters to go. -/
def signalLoop (buf : Bytes) : Nat → Nat → Option Int
  | 0, _ => some 0
  | rounds + 1, i => do
    let c ← load buf i
    if c = ascii ',' then readSignal buf i else signalLoop buf rounds (i + 1)

/-- `check_sim_signal` (`mat.c:112-146`). -/
def checkSimSignal (modem : Modem) (ms : Msim) : Option (Msim × Int) := do
  let (ret, buf) ← askFor modem (text "AT+CSQ\r") (text "+CSQ")
  if ret < 0 then some (ms, -1)
  else do
    let signal ← signalLoop buf (← strlen buf) 0
    if signal < 7 ∨ signal = 99 then some (ms, -1)
    else some ({ ms with signal := signal }, 0)

/-- `check_sim_register` (`mat.c:148-166`). -/
def checkSimRegister (modem : Modem) : Option Int := do
  let (ret, buf) ← askFor modem (text "AT+CREG?\r") (text "OK")
  if ret < 0 then some (-1)
  else do
    let home ← strstrIn buf (text "0,1")
    let roaming ← strstrIn buf (text "0,5")
    if home.isNone ∧ roaming.isNone then some (-2) else some 0

/-- `check_sim_operator` (`mat.c:168-193`). Without a second quote `pend` is `NULL`, and the
store through it has no result. -/
def checkSimOperator (modem : Modem) (ms : Msim) : Option (Msim × Int) := do
  let (ret, buf) ← askFor modem (text "AT+COPS?\r") (text "OK")
  if ret < 0 then some (ms, -1)
  else match ← strstrIn buf [ascii '"'] with
  | none => some (ms, -1)
  | some pstart => do
    let pstart := pstart + 1
    match ← strstrIn (buf.drop pstart) [ascii '"'] with
    | none => none
    | some len => do
      let pend := pstart + len
      let buf ← store buf pend 0
      let operator ← ms.operator.copy (cstr (buf.drop pstart)) (pend - pstart + 1)
      some ({ ms with operator := operator }, 0)

/-! ### `mat_uart_check_sim_all` -/

/-- A command that a call has sent, with the code of its check. -/
abbrev Sent := Bytes × Int

/-- The checks below `SIM_READY` (`mat.c:205-219`), up to the first one that fails. -/
def checkSimFull (modem : Modem) (ms : Msim) : Option (Msim × Bool × List Sent) := do
  let ret ← checkAtOk modem
  let sent := [(text "AT\r", ret)]
  if ret < 0 then some (ms, false, sent)
  else do
    let ret ← checkSimReady modem
    let sent := sent ++ [(text "AT+CPIN?\r", ret)]
    if ret < 0 then some (ms, false, sent)
    else do
      let ret ← checkSimRegister modem
      let sent := sent ++ [(text "AT+CREG?\r", ret)]
      if ret < 0 then some (ms, false, sent)
      else do
        let (ms, ret) ← checkSimOperator modem ms
        let sent := sent ++ [(text "AT+COPS?\r", ret)]
        some (ms, !(ret < 0), sent)

/-- The label `msim_reset` (`mat.c:237-240`). -/
def msimReset (ms : Msim) (sent : List Sent) : Option (Msim × Int × List Sent) := do
  let _ ← MSIM_STATE[ms.state.toNat]?
  some ({ ms with state := SIM_ZERO }, -1, sent)

/-- `mat_uart_check_sim_all` (`mat.c:195-241`), with the commands it sends. -/
def matUartCheckSimAll (modem : Modem) (ms : Msim) : Option (Msim × Int × List Sent) := do
  let (ms, ok, sent) ← if ms.state < SIM_READY then checkSimFull modem ms else some (ms, true, [])
  if !ok then msimReset ms sent
  else do
    let (ms, ret) ← checkSimSignal modem ms
    let sent := sent ++ [(text "AT+CSQ\r", ret)]
    if ret < 0 then msimReset ms sent
    else some ({ ms with state := SIM_REGISTER }, 0, sent)

/-! ### Runs -/

/-- The text of a reply. -/
def textOf (reply : Bytes) : Bytes := cstr (reply ++ [0])

/-- The name between the first two quotes. -/
def operatorName (s : Bytes) : Bytes :=
  ((s.dropWhile (· ≠ ascii '"')).drop 1).takeWhile (· ≠ ascii '"')

/-- A reply that fits into the buffer with a NUL, does not start with a comma in its first two
places, and closes a quoted name after at most 15 characters. -/
structure LegalReply (reply : Bytes) : Prop where
  short : reply.length ≤ 63
  first : (textOf reply)[0]? ≠ some (ascii ',')
  second : (textOf reply)[1]? ≠ some (ascii ',')
  quoted : ∀ a b, textOf reply = a ++ ascii '"' :: b → ascii '"' ∉ a →
    ∃ name c, b = name ++ ascii '"' :: c ∧ ascii '"' ∉ name ∧ name.length ≤ 15

/-- Every reply of the modem is legal; writes and reads may fail. -/
def LegalModem (modem : Modem) : Prop :=
  ∀ atCmd reply, (modem atCmd).reply = some reply → LegalReply reply

/-- A call with the modem it met, what it sent and what it returned. -/
structure Call where
  modem : Modem
  sent : List Sent
  ret : Int

inductive Step : Msim → Call → Msim → Prop
  | call {ms ms' : Msim} {modem : Modem} {ret : Int} {sent : List Sent}
      (legal : LegalModem modem) (done : matUartCheckSimAll modem ms = some (ms', ret, sent)) :
      Step ms ⟨modem, sent, ret⟩ ms'

end Mat
end CFunction
