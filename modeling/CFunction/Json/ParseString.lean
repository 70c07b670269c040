import CFunction.Json.Item

/-!
# Reading a string literal

`parse_string` and what it calls. The text is the list of the bytes that may be read. The output
is what has been written so far of the `room` bytes that were allocated.
-/

namespace CFunction
namespace Json

open CString

/-- Why a text gave no item. -/
inductive Stop where
  /-- a byte outside a buffer was read or written -/
  | outside
  /-- the recursion of the model went too deep -/
  | exhausted
  /-- the text was rejected, and the offset stayed where it was -/
  | rejected (offset : Nat)
  deriving DecidableEq

def byteAt (content : Bytes) (i : Nat) : Except Stop UInt8 :=
  match content[i]? with
  | some b => .ok b
  | none => .error .outside

/-! ### UTF-16 literals -/

def hexValue (c : UInt8) : Option Nat :=
  if 48 ≤ c ∧ c ≤ 57 then some (c.toNat - 48)
  else if 65 ≤ c ∧ c ≤ 70 then some (10 + c.toNat - 65)
  else if 97 ≤ c ∧ c ≤ 102 then some (10 + c.toNat - 97)
  else none

/-- The loop of `parse_hex4` with `n` digits to go. Whatever is no digit gives 0. -/
def hexLoop (content : Bytes) (i : Nat) : Nat → Nat → Except Stop Nat
  | 0, h => .ok h
  | n + 1, h => do
    let c ← byteAt content i
    match hexValue c with
    | none => .ok 0
    | some d => hexLoop content (i + 1) n (if n ≠ 0 then (h + d) <<< 4 else h + d)

def parseHex4 (content : Bytes) (input : Nat) : Except Stop Nat := hexLoop content input 4 0

/-- The loop over the bytes behind the first one, the last of them first. -/
def encodeTail : Nat → Nat → Bytes → Nat × Bytes
  | 0, codepoint, tail => (codepoint, tail)
  | n + 1, codepoint, tail =>
    encodeTail n (codepoint >>> 6) (UInt8.ofNat ((codepoint ||| 0x80) &&& 0xBF) :: tail)

/-- A code point as UTF-8. -/
def encodeUtf8 (codepoint : Nat) : Option Bytes :=
  if codepoint < 0x80 then some [UInt8.ofNat (codepoint &&& 0x7F)]
  else if codepoint < 0x800 then some (encode 2 0xC0)
  else if codepoint < 0x10000 then some (encode 3 0xE0)
  else if codepoint ≤ 0x10FFFF then some (encode 4 0xF0)
  else none
where
  encode (utf8Length firstByteMark : Nat) : Bytes :=
    let (codepoint, tail) := encodeTail (utf8Length - 1) codepoint []
    UInt8.ofNat ((codepoint ||| firstByteMark) &&& 0xFF) :: tail

/-- The code point of a surrogate pair, whose second half is to follow. -/
def surrogatePair (content : Bytes) (firstCode second inputEnd : Nat) :
    Except Stop (Option Nat) :=
  if inputEnd < second + 6 then .ok none
  else do
    let b ← byteAt content second
    if b ≠ ascii '\\' then .ok none
    else
      let b ← byteAt content (second + 1)
      if b ≠ ascii 'u' then .ok none
      else
        let secondCode ← parseHex4 content (second + 2)
        if secondCode < 0xDC00 ∨ 0xDFFF < secondCode then .ok none
        else .ok (some (0x10000 + (((firstCode &&& 0x3FF) <<< 10) ||| (secondCode &&& 0x3FF))))

/-- `utf16_literal_to_utf8`: the bytes, and how long the literal is. -/
def utf16LiteralToUtf8 (content : Bytes) (input inputEnd : Nat) :
    Except Stop (Option (Bytes × Nat)) :=
  if inputEnd < input + 6 then .ok none
  else do
    let firstCode ← parseHex4 content (input + 2)
    if 0xDC00 ≤ firstCode ∧ firstCode ≤ 0xDFFF then .ok none
    else if 0xD800 ≤ firstCode ∧ firstCode ≤ 0xDBFF then
      match ← surrogatePair content firstCode (input + 6) inputEnd with
      | none => .ok none
      | some codepoint => .ok ((encodeUtf8 codepoint).map fun bytes => (bytes, 12))
    else .ok ((encodeUtf8 firstCode).map fun bytes => (bytes, 6))

/-! ### The literal -/

/-- The loop that looks for the closing quote: where it stands, and the escapes in front of it. -/
def scanString : Bytes → Nat → Nat → Option (Nat × Nat)
  | [], _, _ => none
  | c :: rest, inputEnd, skippedBytes =>
    if c = ascii '"' then some (inputEnd, skippedBytes)
    else if c = ascii '\\' then
      match rest with
      | [] => none
      | _ :: rest => scanString rest (inputEnd + 2) (skippedBytes + 1)
    else scanString rest (inputEnd + 1) skippedBytes

/-- `bytes` written behind the output. -/
def emit (room : Nat) (output bytes : Bytes) : Except Stop Bytes :=
  if output.length + bytes.length ≤ room then .ok (output ++ bytes) else .error .outside

/-- The escape sequence at `input`: what it stands for, and how long it is. -/
def escapeSequence (content : Bytes) (input inputEnd : Nat) :
    Except Stop (Option (Bytes × Nat)) := do
  let c ← byteAt content (input + 1)
  if c = ascii 'b' then .ok (some ([8], 2))
  else if c = ascii 'f' then .ok (some ([12], 2))
  else if c = ascii 'n' then .ok (some ([10], 2))
  else if c = ascii 'r' then .ok (some ([13], 2))
  else if c = ascii 't' then .ok (some ([9], 2))
  else if c = ascii '"' ∨ c = ascii '\\' ∨ c = ascii '/' then .ok (some ([c], 2))
  else if c = ascii 'u' then utf16LiteralToUtf8 content input inputEnd
  else .ok none

/-- The loop through the literal. -/
def unescape (content : Bytes) (inputEnd room : Nat) : Nat → Nat → Bytes → Except Stop Bytes
  | 0, input, output => if input < inputEnd then .error .exhausted else .ok output
  | n + 1, input, output =>
    if input < inputEnd then do
      let c ← byteAt content input
      if c ≠ ascii '\\' then
        let output ← emit room output [c]
        unescape content inputEnd room n (input + 1) output
      else
        match ← escapeSequence content input inputEnd with
        | none => .error (.rejected input)
        | some (bytes, sequenceLength) =>
          let output ← emit room output bytes
          unescape content inputEnd room n (input + sequenceLength) output
    else .ok output

/-- `parse_string`: the string, and the offset behind the closing quote. -/
def parseString (content : Bytes) (offset : Nat) : Except Stop (Str × Nat) := do
  let c ← byteAt content offset
  if c ≠ ascii '"' then
    .error (.rejected (offset + 1))
  else
    match scanString (content.drop (offset + 1)) (offset + 1) 0 with
    | none => .error (.rejected (offset + 1))
    | some (inputEnd, skippedBytes) =>
      let room := inputEnd - offset - skippedBytes + 1
      let output ← unescape content inputEnd room (inputEnd - offset) (offset + 1) []
      let output ← emit room output [0]
      .ok (Str.ofBytes output, inputEnd + 1)

end Json
end CFunction
