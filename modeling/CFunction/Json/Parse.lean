import CFunction.Json.Number
import CFunction.Json.ParseString

/-!
# Parsing a text

`cJSON_Parse` and what it calls. The recursion has a bound, which no text reaches. All
allocations succeed.
-/

namespace CFunction
namespace Json

open CString

/-- `CJSON_NESTING_LIMIT` -/
def nestingLimit : Nat := 1000

variable {ν : Type}

/-- `buffer_skip_whitespace`, which stays on the last byte. -/
def skipWhitespace (content : Bytes) (offset : Nat) : Nat :=
  if offset < content.length then
    let stop := offset + ((content.drop offset).takeWhile (· ≤ 32)).length
    if stop = content.length then stop - 1 else stop
  else offset

/-- `skip_utf8_bom` at the start of the text. -/
def skipUtf8Bom (content : Bytes) : Nat :=
  if 4 < content.length ∧ [0xEF, 0xBB, 0xBF] <+: content then 3 else 0

/-- Whether `word` can be read at the offset. -/
def wordAt (content : Bytes) (offset : Nat) (word : String) : Bool :=
  (text word).isPrefixOf (content.drop offset)

/-- What `parse_number` copies: 63 characters at most. -/
def numberCString (content : Bytes) (offset : Nat) : Bytes :=
  ((content.drop offset).take 63).takeWhile isNumberChar

def isInteger (s : Bytes) : Bool := s.all fun c => c ∉ text "eE."

def parseNumber (D : Doubles ν) (content : Bytes) (offset : Nat) :
    Except Stop (Item ν × Nat) :=
  let s := numberCString content offset
  let afterEnd := strtodLength s
  if afterEnd = 0 then .error (.rejected offset)
  else if isInteger s then
    let (valueint, afterEndInt) := strtoll s
    if afterEndInt = 0 then .error (.rejected offset)
    else .ok (.int valueint, offset + afterEnd)
  else .ok (.number (D.strtod (s.take afterEnd)), offset + afterEnd)

mutual

def parseValue (D : Doubles ν) (content : Bytes) :
    Nat → Nat → Nat → Except Stop (Item ν × Nat)
  | 0, _, _ => .error .exhausted
  | fuel + 1, offset, depth =>
    if wordAt content offset "null" then .ok (.null, offset + 4)
    else if wordAt content offset "false" then .ok (.bool false, offset + 5)
    else if wordAt content offset "true" then .ok (.bool true, offset + 4)
    else
      match content[offset]? with
      | none => .error (.rejected offset)
      | some c =>
        if c = ascii '"' then do
          let (valuestring, offset) ← parseString content offset
          .ok (.string valuestring, offset)
        else if c = ascii '+' ∨ c = ascii '-' ∨ isDigit c then parseNumber D content offset
        else if c = ascii '[' then parseArray D content fuel offset depth
        else if c = ascii '\x7b' then parseObject D content fuel offset depth
        else .error (.rejected offset)
termination_by structural fuel => fuel

def parseArray (D : Doubles ν) (content : Bytes) :
    Nat → Nat → Nat → Except Stop (Item ν × Nat)
  | 0, _, _ => .error .exhausted
  | fuel + 1, offset, depth =>
    if nestingLimit ≤ depth then .error (.rejected offset)
    else do
      let c ← byteAt content offset
      if c ≠ ascii '[' then .error (.rejected offset)
      else
        let offset := skipWhitespace content (offset + 1)
        match content[offset]? with
        | none => .error (.rejected (offset - 1))
        | some c =>
          if c = ascii ']' then .ok (.array [], offset + 1)
          else
            -- back to the byte in front of the first element
            let (child, offset) ← parseElements D content fuel (offset - 1) (depth + 1)
            if content[offset]? = some (ascii ']') then .ok (.array child, offset + 1)
            else .error (.rejected offset)
termination_by structural fuel => fuel

/-- The loop over the elements, from the byte in front of one on. -/
def parseElements (D : Doubles ν) (content : Bytes) :
    Nat → Nat → Nat → Except Stop (List (Item ν) × Nat)
  | 0, _, _ => .error .exhausted
  | fuel + 1, offset, depth => do
    let offset := skipWhitespace content (offset + 1)
    let (item, offset) ← parseValue D content fuel offset depth
    let offset := skipWhitespace content offset
    if content[offset]? = some (ascii ',') then
      let (rest, offset) ← parseElements D content fuel offset depth
      .ok (item :: rest, offset)
    else .ok ([item], offset)
termination_by structural fuel => fuel

def parseObject (D : Doubles ν) (content : Bytes) :
    Nat → Nat → Nat → Except Stop (Item ν × Nat)
  | 0, _, _ => .error .exhausted
  | fuel + 1, offset, depth =>
    if nestingLimit ≤ depth then .error (.rejected offset)
    else if content[offset]? ≠ some (ascii '\x7b') then .error (.rejected offset)
    else
      let offset := skipWhitespace content (offset + 1)
      match content[offset]? with
      | none => .error (.rejected (offset - 1))
      | some c =>
        if c = ascii '\x7d' then .ok (.object [], offset + 1)
        else do
          let (child, offset) ← parseMembers D content fuel (offset - 1) (depth + 1)
          if content[offset]? = some (ascii '\x7d') then .ok (.object child, offset + 1)
          else .error (.rejected offset)
termination_by structural fuel => fuel

/-- The loop over the members. -/
def parseMembers (D : Doubles ν) (content : Bytes) :
    Nat → Nat → Nat → Except Stop (List (Str × Item ν) × Nat)
  | 0, _, _ => .error .exhausted
  | fuel + 1, offset, depth => do
    let offset := skipWhitespace content (offset + 1)
    let (name, offset) ← parseString content offset
    let offset := skipWhitespace content offset
    if content[offset]? ≠ some (ascii ':') then .error (.rejected offset)
    else
      let offset := skipWhitespace content (offset + 1)
      let (item, offset) ← parseValue D content fuel offset depth
      let offset := skipWhitespace content offset
      if content[offset]? = some (ascii ',') then
        let (rest, offset) ← parseMembers D content fuel offset depth
        .ok ((name, item) :: rest, offset)
      else .ok ([(name, item)], offset)
termination_by structural fuel => fuel

end

/-- The recursion that a text of this length needs at most. -/
def parseFuel (content : Bytes) : Nat := 3 * content.length + 1

/-- The item, and where the text behind it begins. -/
def parseText (D : Doubles ν) (content : Bytes) (requireNullTerminated : Bool) :
    Except Stop (Item ν × Nat) :=
  if content.length = 0 then .error (.rejected 0)
  else do
    let offset := skipWhitespace content (skipUtf8Bom content)
    let (item, offset) ← parseValue D content (parseFuel content) offset 0
    if requireNullTerminated then
      let offset := skipWhitespace content offset
      if content[offset]? = some 0 then .ok (item, offset) else .error (.rejected offset)
    else .ok (item, offset)

/-- `cJSON_ParseWithLengthOpts`: on an error the place of it is in the text. -/
def parseWithLengthOpts (D : Doubles ν) (value : Bytes) (requireNullTerminated : Bool) :
    Except Stop (Item ν × Nat) :=
  match parseText D value requireNullTerminated with
  | .error (.rejected offset) =>
    .error (.rejected (if offset < value.length then offset else value.length - 1))
  | result => result

/-- `cJSON_ParseWithOpts`: the text ends with its NUL. -/
def parseWithOpts (D : Doubles ν) (value : Bytes) (requireNullTerminated : Bool) :
    Except Stop (Item ν × Nat) :=
  match strlen value with
  | none => .error .outside
  | some len => parseWithLengthOpts D (value.take (len + 1)) requireNullTerminated

/-- `cJSON_Parse` -/
def parse (D : Doubles ν) (value : Bytes) : Except Stop (Item ν) := do
  let (item, _) ← parseWithOpts D value false
  .ok item

end Json
end CFunction
