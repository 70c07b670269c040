import CFunction.Misc.CInt
import CFunction.Misc.CString
import CFunction.Misc.Runs

/-!
# Key-value configuration files

`src/parsekv.c`. The disk holds the bytes of the one file in question, or no file. A `char *`
into a string is the string from there on, or its index where the string is written to. Every
I/O call succeeds; whether `malloc` does is part of each call.
-/

namespace CFunction
namespace ParseKv

open CString

/-- `KV_SIZE` (`parsekv.c:10`). -/
def KV_SIZE : Nat := 2 * 128

def INT_MAX : Nat := 2147483647

/-! ### Strings -/

/-- `int len = strlen(s)`, counted as an `int`. -/
def intLength : Bytes → Int
  | [] => 0
  | _ :: s => toInt32 (intLength s + 1)

theorem intLength_eq (s : Bytes) : intLength s = toInt32 s.length := by
  induction s with
  | nil => rfl
  | cons c s ih => rw [intLength, ih, toInt32_add, List.length_cons, Int.natCast_succ]

/-- The first loop of `kv_del_blank` (`parsekv.c:22-24`): the buffer and `j`. -/
def trimEnd (buf : Bytes) : Nat → Bytes × Nat
  | 0 => (buf, 0)
  | j + 1 => if isspace (buf.getD (j + 1) 0) then trimEnd (buf.set (j + 1) 0) j else (buf, j + 1)

/-- The second loop of `kv_del_blank` (`parsekv.c:26`): `i`. -/
def skipBlanks (buf : Bytes) (j : Nat) : Nat → Nat → Nat
  | 0, i => i
  | fuel + 1, i => if i < j ∧ isspace (buf.getD i 0) then skipBlanks buf j fuel (i + 1) else i

/-- `kv_del_blank` (`parsekv.c:13-34`), where `len` is an `int`. The overlapping `strncpy` copies
forward. -/
def kvDelBlank (buf : Bytes) : Option Bytes := do
  let n ← strlen buf
  let len := toInt32 n
  let (buf, j) := trimEnd buf (toInt32 (len - 1)).toNat
  let i := skipBlanks buf j j 0
  if i ≠ 0 then strncpy buf (cstr (buf.drop i)) (toSize len) else some buf

/-- `kv_get_key` (`parsekv.c:41-54`). -/
def kvGetKey (str : Bytes) : Bytes := str.dropWhile isspace

/-- `kv_get_value` (`parsekv.c:60-70`): the index of its result. -/
def kvGetValue (str : Bytes) : Option Nat := (str.findIdx? (· = ascii '=')).map (· + 1)

/-- `kv_is_key_equal` (`parsekv.c:77-92`), where `len` is an `int`. A negative one is an index in
front of the line; the strings that are compared are too short for that. -/
def kvIsKeyEqual (str key : Bytes) : Bool :=
  let len := intLength key
  let pstr := kvGetKey str
  let behind := pstr.getD len.toNat 0
  strncmpEq pstr key (toSize len) &&
    ((isspace behind && pstr.contains (ascii '=')) || ascii '=' = behind)

/-- `kv_parse_kv_to_kv` (`parsekv.c:99-112`): its result and the two buffers. -/
def kvParseKvToKv (str key value : Bytes) : Option (Int × Bytes × Bytes) :=
  match str.findIdx? (· = ascii '=') with
  | none => some (-1, key, value)
  | some res => do
    let key ← strncpy key str res
    let key ← kvDelBlank key
    let rest := str.drop (res + 1)
    let value ← strncpy value rest rest.length
    let value ← kvDelBlank value
    some (0, key, value)

/-- `kv_change_value` (`parsekv.c:118-129`): the buffer and the result. -/
def kvChangeValue (buf value : Bytes) : Option (Bytes × Int) :=
  match kvGetValue (cstr buf) with
  | none => some (buf, -1)
  | some p => do
    let buf ← strcpy buf p value
    some (buf, 0)

/-! ### The file -/

/-- An open file: the bytes in front of the position, those behind it, and the end-of-file
indicator. -/
structure Stream where
  before : Bytes
  rest : Bytes
  eof : Bool

def Stream.content (fp : Stream) : Bytes := fp.before ++ fp.rest

/-- Positioned at the start. -/
def Stream.start (content : Bytes) : Stream := ⟨[], content, false⟩

/-- Up to `n` bytes, the last of which may be a newline, and whether the end of the file was
met. -/
def readLine : Nat → Bytes → Bytes × Bool
  | 0, _ => ([], false)
  | _ + 1, [] => ([], true)
  | n + 1, b :: rest =>
    if b = ascii '\n' then ([b], false) else (b :: (readLine n rest).1, (readLine n rest).2)

/-- `fgets(buf, size, fp)`. At the end of the file `buf` stays as it is. -/
def fgets (buf : Bytes) (size : Nat) (fp : Stream) : Option (Bytes × Stream) := do
  let line := (readLine (size - 1) fp.rest).1
  let eof := (readLine (size - 1) fp.rest).2
  let fp := ⟨fp.before ++ line, fp.rest.drop line.length, fp.eof || eof⟩
  if line = [] then some (buf, fp)
  else do
    let buf ← overwrite buf 0 (line ++ [0])
    some (buf, fp)

/-- Writing at the position. -/
def Stream.write (fp : Stream) (s : Bytes) : Stream :=
  { fp with before := fp.before ++ s, rest := fp.rest.drop s.length }

/-- `fopen(file, "w+")`. -/
def Stream.truncated : Stream := .start []

/-- The loop of `file_get_value` (`parsekv.c:151-157`), for at most `fuel` rounds: the line found,
if any. -/
def findLine (key : Bytes) : Nat → Bytes → Stream → Option (Option Bytes)
  | 0, _, fp => if fp.eof then some none else none
  | fuel + 1, linebuf, fp =>
    if fp.eof then some none
    else do
      let (linebuf, fp) ← fgets linebuf KV_SIZE fp
      if kvIsKeyEqual (cstr linebuf) key then some (some linebuf)
      else findLine key fuel linebuf fp

/-- `file_get_value` (`parsekv.c:136-171`): its result and the value buffer. -/
def fileGetValue (disk : Option Bytes) (key value : Bytes) : Option (Int × Bytes) :=
  match disk with
  | none => some (-2, value)
  | some content => do
    match ← findLine key (content.length + 1) (List.replicate KV_SIZE 0) (.start content) with
    | none => some (-3, value)
    | some linebuf => do
      let p ← kvGetValue (cstr linebuf)
      let res := cstr (linebuf.drop p)
      let value ← strncpy value res res.length
      let value ← kvDelBlank value
      some (0, value)

/-- What the loop of `file_update_value` does with the line of the key (`parsekv.c:217-223`). -/
def replaceValue (linebuf value : Bytes) : Option Bytes := do
  let (linebuf, _) ← kvChangeValue linebuf value
  let len ← strlen linebuf
  let last ← load linebuf ((len : Int) - 1)
  if last ≠ ascii '\n' then overwrite linebuf len [ascii '\n', 0] else some linebuf

/-- The loop of `file_update_value` (`parsekv.c:213-226`), for at most `fuel` rounds: the stream,
`filebuf` and `key_flag`. -/
def copyLines (key value : Bytes) : Nat → Stream → Bytes → Bool → Option (Stream × Bytes × Bool)
  | 0, fp, filebuf, flag => if fp.eof then some (fp, filebuf, flag) else none
  | fuel + 1, fp, filebuf, flag =>
    if fp.eof then some (fp, filebuf, flag)
    else do
      let (linebuf, fp) ← fgets (List.replicate KV_SIZE 0) KV_SIZE fp
      if kvIsKeyEqual (cstr linebuf) key then do
        let linebuf ← replaceValue linebuf value
        let filebuf ← strcat filebuf (cstr linebuf)
        copyLines key value fuel fp filebuf true
      else do
        let filebuf ← strcat filebuf (cstr linebuf)
        copyLines key value fuel fp filebuf flag

/-- The file after `fopen(file, "r+")`, or `fopen(file, "w+")` when there is none. -/
def opened (disk : Option Bytes) : Bytes := disk.getD []

/-- The `size_t` that `malloc` gets (`parsekv.c:200-206`): `filesize` is an `int`. -/
def request (disk : Option Bytes) : Nat :=
  toSize (toInt32 (toInt32 (opened disk).length + KV_SIZE))

/-- `"%s=%s\n"`. -/
def kvLine (key value : Bytes) : Bytes := key ++ ascii '=' :: value ++ [ascii '\n']

/-- `file_update_value` (`parsekv.c:178-247`): the disk and the result. `granted` says whether
`malloc` succeeds. -/
def fileUpdateValue (granted : Bool) (disk : Option Bytes) (key value : Bytes) :
    Option (Option Bytes × Int) := do
  let content := opened disk
  if !granted then some (some content, -3)
  else
    let (fp, filebuf, flag) ← copyLines key value (content.length + 1) (.start content)
      (List.replicate (request disk) 0) false
    if !flag then some (some (fp.write (kvLine key value)).content, 0)
    else some (some (Stream.truncated.write (cstr filebuf)).content, 0)

/-- `PTRDIFF_MAX`. `malloc` never grants more. -/
def PTRDIFF_MAX : Nat := 9223372036854775807

/-- A call of `file_update_value`, what `malloc` answers, and the result. -/
structure Update where
  key : Bytes
  value : Bytes
  granted : Bool
  ret : Int
  deriving DecidableEq, Repr

/-- One call as a step on the disk. -/
def Step (disk : Option Bytes) (u : Update) (disk' : Option Bytes) : Prop :=
  (u.granted → request disk ≤ PTRDIFF_MAX) ∧
    fileUpdateValue u.granted disk u.key u.value = some (disk', u.ret)

end ParseKv
end CFunction
