import CFunction.Misc.CString
import CFunction.Misc.Tokens

/-!
# The hex line of the uart programs

The hex format of `uart/init_uart.c`, `uart/test_uart.c` and `uart/test_uart_v2.c`: the loop that
reads a line of hex bytes, and the one that prints them. `txBuf` are the bytes that may be read;
reading outside them has no result. An index grows in every round, so that a loop which is not over
after as many rounds as there are bytes has left them.
-/

namespace CFunction
namespace HexInput

open CString

/-- `BUF_SIZE`, the size of `tx_buf_tmp`; `tx_buf` has twice as many bytes. -/
def BUF_SIZE : Nat := 256

def isxdigit (c : UInt8) : Bool :=
  (ascii '0' ≤ c && c ≤ ascii '9') || (ascii 'A' ≤ c && c ≤ ascii 'F') ||
    (ascii 'a' ≤ c && c ≤ ascii 'f')

/-- The value of a hex digit. -/
def digitValue (c : UInt8) : Nat :=
  if c ≤ ascii '9' then (c - ascii '0').toNat
  else if c ≤ ascii 'F' then (c - ascii 'A').toNat + 10
  else (c - ascii 'a').toNat + 10

/-- `strtol(s, NULL, 16)` of a text that begins with two hex digits, so that there is neither a sign
nor a prefix. -/
def strtolHex (s : Bytes) : Nat :=
  (s.takeWhile isxdigit).foldl (fun value c => 16 * value + digitValue c) 0

/-- `while(isspace(tx_buf[i]) != 0) i++`, and `== 0` with `space` false. -/
def scan (space : Bool) (txBuf : Bytes) : Nat → Int → Option Int
  | 0, _ => none
  | fuel + 1, i => do
    let c ← load txBuf i
    if isspace c = space then scan space txBuf fuel (i + 1) else some i

/-- `tx_buf_tmp[j++] = b` -/
def push (txBufTmp : Bytes) (b : UInt8) : Option Bytes :=
  if txBufTmp.length < BUF_SIZE then some (txBufTmp ++ [b]) else none

/-- The `for` loop (`init_uart.c:384-393`): where `i` ends, and the bytes in `tx_buf_tmp`. -/
def hexLoop (txBuf : Bytes) (len : Int) : Nat → Int → Bytes → Option (Int × Bytes)
  | 0, _, _ => none
  | fuel + 1, i, txBufTmp =>
    if i < len then do
      let i ← scan false txBuf (txBuf.length + 1) i
      let high ← load txBuf (i - 2)
      if isxdigit high then do
        let low ← load txBuf (i - 1)
        if isxdigit low then do
          let value := strtolHex (txBuf.drop (i - 2).toNat)
          let txBufTmp ← push txBufTmp (UInt8.ofNat (value &&& 0xFF))
          let i ← scan true txBuf (txBuf.length + 1) (i + 1)
          -- the `i++` of the `for` steps over the first character of the next item
          hexLoop txBuf len fuel (i + 1) txBufTmp
        else some (i, txBufTmp)
      else some (i, txBufTmp)
    else some (i, txBufTmp)

/-- A line (`init_uart.c:378-399`): the bytes that are sent, or an input error. -/
def hexInput (txBuf : Bytes) : Option (Option Bytes) := do
  let len ← strlen txBuf
  let i ← scan true txBuf (txBuf.length + 1) 0
  let (i, txBufTmp) ← hexLoop txBuf len (txBuf.length + 1) i []
  if i < len ∨ txBufTmp.length = 0 then some none else some (some txBufTmp)

/-- The digit of `%X`. -/
def hexDigit (n : Nat) : UInt8 := if n < 10 then UInt8.ofNat (48 + n) else UInt8.ofNat (55 + n)

/-- `"%.2X "` (`init_uart.c:402-405`). -/
def hexOutput (b : UInt8) : Bytes := [hexDigit (b.toNat / 16), hexDigit (b.toNat % 16), 32]

end HexInput
end CFunction
