import CFunction.Json.Number

/-!
# Printing an item

`cJSON_Print` and what it calls. The buffer is the list of its bytes, of which those that nothing
has been written to are arbitrary, and every allocation may fail.
-/

namespace CFunction
namespace Json

open CString

/-- The exit at which a function gives up. The code returns `false` or `NULL` at each of them. -/
inductive Failure where
  /-- an allocation of that many bytes was refused, after those before it -/
  | allocation (asked : List Nat) (size : Nat)
  /-- more than `INT_MAX` bytes are needed -/
  | tooLong
  /-- the buffer of the caller is full -/
  | full
  /-- the offset is not in the buffer -/
  | offset
  /-- an argument is negative -/
  | argument
  deriving DecidableEq

/-- Why an item was not printed. -/
inductive PrintStop where
  /-- a byte outside a buffer was read or written -/
  | outside
  /-- the function returned `false`, or `NULL` -/
  | failed (failure : Failure)
  deriving DecidableEq

/-- The memory that is asked for. -/
structure Hooks where
  /-- whether an allocation of that many bytes succeeds after the ones before it, the last first -/
  allocate : List Nat → Nat → Bool
  /-- whether there is a `realloc` -/
  reallocate : Bool
  /-- what a block of that many bytes holds before it is written to -/
  fresh : Nat → Nat → UInt8

def Hooks.block (hooks : Hooks) (size : Nat) : Bytes := (List.range size).map (hooks.fresh size)

/-- The memory after those allocations. -/
def Hooks.after (hooks : Hooks) (asked : List Nat) : Hooks :=
  { hooks with allocate := fun later => hooks.allocate (later ++ asked) }

/-- `printbuffer`, with the sizes that were asked for -/
structure PrintBuffer where
  asked : List Nat
  buffer : Bytes
  offset : Nat
  depth : Nat
  noalloc : Bool
  format : Bool

variable {ν : Type}

/-- `INT_MAX` -/
def intMax : Nat := 2147483647

/-! ### The buffer -/

/-- The new buffer of `ensure`. -/
def grow (hooks : Hooks) (p : PrintBuffer) (newsize : Nat) : Except PrintStop PrintBuffer :=
  if ¬ hooks.allocate p.asked newsize then .error (.failed (.allocation p.asked newsize))
  else if hooks.reallocate then
    .ok { p with
      asked := newsize :: p.asked
      buffer := p.buffer ++ (hooks.block newsize).drop p.buffer.length }
  else if p.offset + 1 ≤ p.buffer.length then
    .ok { p with
      asked := newsize :: p.asked
      buffer := p.buffer.take (p.offset + 1) ++ (hooks.block newsize).drop (p.offset + 1) }
  else .error .outside

def ensure (hooks : Hooks) (p : PrintBuffer) (needed : Nat) : Except PrintStop PrintBuffer :=
  if 0 < p.buffer.length ∧ p.buffer.length ≤ p.offset then .error (.failed .offset)
  else if intMax < needed then .error (.failed .tooLong)
  else
    let needed := needed + (p.offset + 1)
    if needed ≤ p.buffer.length then .ok p
    else if p.noalloc then .error (.failed .full)
    else if intMax / 2 < needed then
      if needed ≤ intMax then grow hooks p intMax else .error (.failed .tooLong)
    else grow hooks p (needed * 2)

def updateOffset (p : PrintBuffer) : Except PrintStop PrintBuffer :=
  match strlen (p.buffer.drop p.offset) with
  | none => .error .outside
  | some n => .ok { p with offset := p.offset + n }

/-- `bytes` written from the `i`-th byte of the output on. -/
def put (p : PrintBuffer) (i : Nat) (bytes : Bytes) : Except PrintStop PrintBuffer :=
  match overwrite p.buffer (p.offset + i) bytes with
  | none => .error .outside
  | some buffer => .ok { p with buffer := buffer }

/-! ### Numbers and strings -/

/-- What `sprintf` leaves in the number buffer of 26 bytes. -/
def numberBuffer (bytes : Bytes) : Except PrintStop Bytes :=
  if bytes.length < 26 then .ok bytes else .error .outside

/-- `print_number`, from the number buffer on. -/
def printNumber (hooks : Hooks) (p : PrintBuffer) (number : Bytes) :
    Except PrintStop PrintBuffer := do
  let number ← numberBuffer number
  let p ← ensure hooks p (number.length + 1)
  let p ← put p 0 (number ++ [0])
  .ok { p with offset := p.offset + number.length }

/-- The additional characters that a character needs. -/
def escapeCharacters (c : UInt8) : Nat :=
  if c = ascii '"' ∨ c = ascii '\\' ∨ c = 8 ∨ c = 12 ∨ c = 10 ∨ c = 13 ∨ c = 9 then 1
  else if c < 32 then 5 else 0

def hexDigit (d : Nat) : UInt8 := if d < 10 then UInt8.ofNat (48 + d) else UInt8.ofNat (87 + d)

/-- A character of a string in the output, and whether `sprintf` wrote it, with a NUL. -/
def escape (c : UInt8) : Bytes × Bool :=
  if 31 < c ∧ c ≠ ascii '"' ∧ c ≠ ascii '\\' then ([c], false)
  else if c = ascii '\\' then ([ascii '\\', ascii '\\'], false)
  else if c = ascii '"' then ([ascii '\\', ascii '"'], false)
  else if c = 8 then ([ascii '\\', ascii 'b'], false)
  else if c = 12 then ([ascii '\\', ascii 'f'], false)
  else if c = 10 then ([ascii '\\', ascii 'n'], false)
  else if c = 13 then ([ascii '\\', ascii 'r'], false)
  else if c = 9 then ([ascii '\\', ascii 't'], false)
  else
    (ascii '\\' :: text "u00" ++ [hexDigit (c.toNat / 16), hexDigit (c.toNat % 16)], true)

/-- The loop that copies the string, from the `i`-th byte of the output on. -/
def putEscaped (p : PrintBuffer) : Nat → Bytes → Except PrintStop PrintBuffer
  | _, [] => .ok p
  | i, c :: s => do
    let (bytes, sprintf) := escape c
    let p ← put p i (if sprintf then bytes ++ [0] else bytes)
    putEscaped p (i + bytes.length) s

/-- `print_string_ptr` -/
def printString (hooks : Hooks) (p : PrintBuffer) (input : Bytes) :
    Except PrintStop PrintBuffer := do
  let escapeCharacters := (input.map escapeCharacters).foldl (· + ·) 0
  let outputLength := input.length + escapeCharacters
  let p ← ensure hooks p (outputLength + 3)
  if escapeCharacters = 0 then
    put p 0 (ascii '"' :: input ++ [ascii '"', 0])
  else
    let p ← put p 0 [ascii '"']
    let p ← putEscaped p 1 input
    put p (outputLength + 1) [ascii '"', 0]

/-- The tabs of `print_object` in front of a member. -/
def putTabs (hooks : Hooks) (p : PrintBuffer) : Except PrintStop PrintBuffer :=
  if p.format then do
    let p ← ensure hooks p p.depth
    let p ← put p 0 (List.replicate p.depth (ascii '\t'))
    .ok { p with offset := p.offset + p.depth }
  else .ok p

/-! ### Values -/

def nul (s : String) : Bytes := text s ++ [0]

mutual

def printValue (D : Doubles ν) (hooks : Hooks) (p : PrintBuffer) :
    Item ν → Except PrintStop PrintBuffer
  | .null => do
    let p ← ensure hooks p 5
    put p 0 (nul "null")
  | .bool valueint => do
    let p ← ensure hooks p 6
    put p 0 (if valueint then nul "true" else nul "false")
  | .int valueint => printNumber hooks p (sprintfLld valueint)
  | .number valuedouble => do
    let _ ← numberBuffer (sprintfFirst D valuedouble)
    printNumber hooks p (sprintfDouble D valuedouble)
  | .raw valuestring => do
    let p ← ensure hooks p (valuestring.val.length + 1)
    put p 0 (valuestring.val ++ [0])
  | .string valuestring => printString hooks p valuestring.val
  | .array child => do
    let p ← ensure hooks p 1
    let p ← put p 0 [ascii '[']
    let p ← printElements D hooks { p with offset := p.offset + 1, depth := p.depth + 1 } child
    let p ← ensure hooks p 2
    let p ← put p 0 (nul "]")
    .ok { p with depth := p.depth - 1 }
  | .object child => do
    let length := if p.format then 2 else 1
    let p ← ensure hooks p (length + 1)
    let p ← put p 0 (ascii '\x7b' :: if p.format then [ascii '\n'] else [])
    let p ← printMembers D hooks { p with offset := p.offset + length, depth := p.depth + 1 } child
    let p ← ensure hooks p (if p.format then p.depth + 1 else 2)
    let tabs := if p.format then List.replicate (p.depth - 1) (ascii '\t') else []
    let p ← put p 0 (tabs ++ nul "\x7d")
    .ok { p with depth := p.depth - 1 }

/-- The loop over the elements of an array. -/
def printElements (D : Doubles ν) (hooks : Hooks) (p : PrintBuffer) :
    List (Item ν) → Except PrintStop PrintBuffer
  | [] => .ok p
  | item :: rest => do
    let p ← printValue D hooks p item
    let p ← updateOffset p
    if rest.isEmpty then printElements D hooks p rest
    else
      let length := if p.format then 2 else 1
      let p ← ensure hooks p (length + 1)
      let p ← put p 0 (ascii ',' :: (if p.format then [ascii ' '] else []) ++ [0])
      printElements D hooks { p with offset := p.offset + length } rest

/-- The loop over the members of an object. -/
def printMembers (D : Doubles ν) (hooks : Hooks) (p : PrintBuffer) :
    List (Str × Item ν) → Except PrintStop PrintBuffer
  | [] => .ok p
  | (name, item) :: rest => do
    let p ← putTabs hooks p
    let p ← printString hooks p name.val
    let p ← updateOffset p
    let length := if p.format then 2 else 1
    let p ← ensure hooks p length
    let p ← put p 0 (ascii ':' :: if p.format then [ascii '\t'] else [])
    let p ← printValue D hooks { p with offset := p.offset + length } item
    let p ← updateOffset p
    let length := (if p.format then 1 else 0) + (if rest.isEmpty then 0 else 1)
    let p ← ensure hooks p (length + 1)
    let p ← put p 0 ((if rest.isEmpty then [] else [ascii ',']) ++
      (if p.format then [ascii '\n'] else []) ++ [0])
    printMembers D hooks { p with offset := p.offset + length } rest

end

/-! ### The calls -/

/-- `print`: the block that holds the text. -/
def print (D : Doubles ν) (hooks : Hooks) (item : Item ν) (format : Bool) :
    Except PrintStop Bytes := do
  if ¬ hooks.allocate [] 256 then .error (.failed (.allocation [] 256))
  else
    let p ← printValue D hooks
      { asked := [256], buffer := hooks.block 256, offset := 0, depth := 0, noalloc := false,
        format := format } item
    let p ← updateOffset p
    if ¬ hooks.allocate p.asked (p.offset + 1) then
      .error (.failed (.allocation p.asked (p.offset + 1)))
    else if hooks.reallocate then .ok (p.buffer.take (p.offset + 1))
    else .ok (p.buffer.take p.offset ++ [0])

end Json
end CFunction
