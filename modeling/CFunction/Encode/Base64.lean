import CFunction.Misc.CInt
import CFunction.Misc.CString

/-!
# Base64 encoder and in-place decoder

`src/encode/base64.c`. The encoder returns the text it has written next to its `int` result;
the decoder gets the buffer that holds the text and returns the buffer as it leaves it.
-/

namespace CFunction
namespace Base64

open CString

/-- `ENC` (`base64.c:6-7`). -/
def ENC : Bytes :=
  ['A', 'B', 'C', 'D', 'E', 'F', 'G', 'H', 'I', 'J', 'K', 'L', 'M', 'N', 'O', 'P', 'Q', 'R',
    'S', 'T', 'U', 'V', 'W', 'X', 'Y', 'Z', 'a', 'b', 'c', 'd', 'e', 'f', 'g', 'h', 'i', 'j',
    'k', 'l', 'm', 'n', 'o', 'p', 'q', 'r', 's', 't', 'u', 'v', 'w', 'x', 'y', 'z', '0', '1',
    '2', '3', '4', '5', '6', '7', '8', '9', '+', '/'].map ascii

/-- `table` (`base64.c:44-56`). -/
def table : List Nat :=
  [0, 0, 0, 0, 0, 0, 0, 0, 0, 0, 0, 0,
    0, 0, 0, 0, 0, 0, 0, 0, 0, 0, 0, 0,
    0, 0, 0, 0, 0, 0, 0, 0, 0, 0, 0, 0,
    0, 0, 0, 0, 0, 0, 0, 62, 0, 0, 0,
    63, 52, 53, 54, 55, 56, 57, 58,
    59, 60, 61, 0, 0, 0, 0, 0, 0, 0, 0,
    1, 2, 3, 4, 5, 6, 7, 8, 9, 10, 11, 12,
    13, 14, 15, 16, 17, 18, 19, 20, 21,
    22, 23, 24, 25, 0, 0, 0, 0, 0, 0, 26,
    27, 28, 29, 30, 31, 32, 33, 34, 35,
    36, 37, 38, 39, 40, 41, 42, 43, 44,
    45, 46, 47, 48, 49, 50, 51]

/-- The `while (inLen)` loop of `base64_encode` (`base64.c:11-36`); `inp` starts at `*in`, and
`out` is what has been written so far. -/
def encodeLoop (inp : Bytes) (inLen : Nat) (out : Bytes) : Option Bytes :=
  match inLen with
  | 0 => some out
  | inLen + 1 => do
    let c0 ← inp[0]?
    -- first 6 bits of char 1
    let e0 ← ENC[c0.toNat >>> 2]?
    match inLen with
    | 0 => do
      -- last 2 bits of char 1, 4 bits of 0
      let e1 ← ENC[(c0.toNat &&& 0x3) <<< 4]?
      some (out ++ [e0, e1, ascii '=', ascii '='])
    | inLen + 1 => do
      let c1 ← inp[1]?
      -- last 2 bits of char 1, first 4 bits of char 2
      let e1 ← ENC[((c0.toNat &&& 0x3) <<< 4) ||| (c1.toNat >>> 4)]?
      match inLen with
      | 0 => do
        -- last 4 bits of char 2, 2 bits of 0
        let e2 ← ENC[(c1.toNat &&& 0xF) <<< 2]?
        some (out ++ [e0, e1, e2, ascii '='])
      | inLen + 1 => do
        let c2 ← inp[2]?
        -- last 4 bits of char 2, first 2 bits of char 3
        let e2 ← ENC[((c1.toNat &&& 0xF) <<< 2) ||| (c2.toNat >>> 6)]?
        -- last 6 bits of char 3
        let e3 ← ENC[c2.toNat &&& 0x3F]?
        encodeLoop (inp.drop 3) inLen (out ++ [e0, e1, e2, e3])

/-- `base64_encode` (`base64.c:4-39`): the text written and `(int)(out - original_out)`. A
negative `inLen` runs off the end of `in`. -/
def base64Encode (inp : Bytes) (inLen : Int) : Option (Bytes × Int) :=
  if inLen < 0 then none
  else do
    let out ← encodeLoop inp inLen.toNat []
    some (out, toInt32 out.length)

/-- `(unsigned char)table[code[i]]`. -/
def lookup (code : Bytes) (i : Int) : Option Nat := do
  let c ← load code i
  let t ← table[c.toNat]?
  some (t % 256)

/-- One round of the decoding loop (`base64.c:74-76`): three stores into the buffer that the
lookups read. -/
def decodeStep (code : Bytes) (i j : Int) : Option Bytes := do
  let a0 ← lookup code i
  let a1 ← lookup code (toInt32 (i + 1))
  let code ← store code j (UInt8.ofNat ((a0 <<< 2) ||| (a1 >>> 4)))
  let b1 ← lookup code (toInt32 (i + 1))
  let b2 ← lookup code (toInt32 (i + 2))
  let code ← store code (toInt32 (j + 1)) (UInt8.ofNat ((b1 <<< 4) ||| (b2 >>> 2)))
  let c2 ← lookup code (toInt32 (i + 2))
  let c3 ← lookup code (toInt32 (i + 3))
  store code (toInt32 (j + 2)) (UInt8.ofNat ((c2 <<< 6) ||| c3))

/-- The loop of `base64_decode` (`base64.c:72-77`), for at most `fuel` rounds. -/
def decodeLoop (len : Int) : Nat → Bytes → Int → Int → Option Bytes
  | 0, code, i, _ => if i < len - 2 then none else some code
  | fuel + 1, code, i, j =>
    if i < len - 2 then do
      let code ← decodeStep code i j
      decodeLoop len fuel code (toInt32 (i + 4)) (toInt32 (j + 3))
    else some code

/-- `outlen` (`base64.c:63-69`). -/
def decodedLength (text : Bytes) : Int :=
  let len : Int := text.length
  if (strstr [ascii '=', ascii '='] text).isSome then len.tdiv 4 * 3 - 2
  else if (strstr [ascii '='] text).isSome then len.tdiv 4 * 3 - 1
  else len.tdiv 4 * 3

/-- `base64_decode` (`base64.c:41-81`): the buffer it leaves and its result. -/
def base64Decode (code : Bytes) : Option (Bytes × Int) := do
  let len ← strlen code
  let outlen := decodedLength (cstr code)
  let code ← decodeLoop len code.length code 0 0
  some (code, toInt32 outlen)

end Base64
end CFunction
