import CFunction.Misc.CString

/-!
# Minifying

`cJSON_Minify`, which drops blanks and comments from a text in its own buffer, and the text that
it leaves. Each loop has fuel, and an access outside the buffer has no result.
-/

namespace CFunction
namespace Json

open CString

/-- The buffer, and the pointers `json` and `into`. -/
structure Minifier where
  buffer : Bytes
  json : Nat
  into : Nat

/-- The loop of `skip_oneline_comment`. -/
def onelineLoop (buffer : Bytes) : Nat → Nat → Option Nat
  | 0, _ => none
  | fuel + 1, input => do
    let c ← load buffer input
    if c = 0 then some input
    else if c = ascii '\n' then some (input + 1)
    else onelineLoop buffer fuel (input + 1)

/-- `skip_oneline_comment` -/
def skipOnelineComment (buffer : Bytes) (fuel input : Nat) : Option Nat :=
  onelineLoop buffer fuel (input + 2)

/-- The loop of `skip_multiline_comment`. -/
def multilineLoop (buffer : Bytes) : Nat → Nat → Option Nat
  | 0, _ => none
  | fuel + 1, input => do
    let c ← load buffer input
    if c = 0 then some input
    else if c = ascii '*' then do
      let d ← load buffer (input + 1 : Nat)
      if d = ascii '/' then some (input + 2) else multilineLoop buffer fuel (input + 1)
    else multilineLoop buffer fuel (input + 1)

/-- `skip_multiline_comment` -/
def skipMultilineComment (buffer : Bytes) (fuel input : Nat) : Option Nat :=
  multilineLoop buffer fuel (input + 2)

/-- `(*output)[0] = (*input)[0]`, and both of them go on. -/
def copyByte (m : Minifier) : Option Minifier := do
  let c ← load m.buffer m.json
  let buffer ← store m.buffer m.into c
  some { buffer, json := m.json + 1, into := m.into + 1 }

/-- The loop of `minify_string`. -/
def stringLoop : Nat → Minifier → Option Minifier
  | 0, _ => none
  | fuel + 1, m => do
    let c ← load m.buffer m.json
    if c = 0 then some m
    else do
      let buffer ← store m.buffer m.into c
      let c ← load buffer m.json
      if c = ascii '"' then do
        let buffer ← store buffer m.into (ascii '"')
        some { buffer, json := m.json + 1, into := m.into + 1 }
      else if c = ascii '\\' then do
        let d ← load buffer (m.json + 1 : Nat)
        if d = ascii '"' then do
          let buffer ← store buffer (m.into + 1 : Nat) d
          stringLoop fuel { buffer, json := m.json + 2, into := m.into + 2 }
        else stringLoop fuel { buffer, json := m.json + 1, into := m.into + 1 }
      else stringLoop fuel { buffer, json := m.json + 1, into := m.into + 1 }

/-- `minify_string` -/
def minifyString (fuel : Nat) (m : Minifier) : Option Minifier := do
  let m ← copyByte m
  stringLoop fuel m

/-- The loop of `cJSON_Minify`. -/
def minifyLoop : Nat → Minifier → Option Minifier
  | 0, _ => none
  | fuel + 1, m => do
    let c ← load m.buffer m.json
    if c = 0 then some m
    else if c = ascii ' ' ∨ c = ascii '\t' ∨ c = ascii '\r' ∨ c = ascii '\n' then
      minifyLoop fuel { m with json := m.json + 1 }
    else if c = ascii '/' then do
      let d ← load m.buffer (m.json + 1 : Nat)
      if d = ascii '/' then do
        let json ← skipOnelineComment m.buffer fuel m.json
        minifyLoop fuel { m with json }
      else if d = ascii '*' then do
        let json ← skipMultilineComment m.buffer fuel m.json
        minifyLoop fuel { m with json }
      else minifyLoop fuel { m with json := m.json + 1 }
    else if c = ascii '"' then do
      let m ← minifyString fuel m
      minifyLoop fuel m
    else do
      let m ← copyByte m
      minifyLoop fuel m

/-- `cJSON_Minify`, on a buffer. -/
def minify (json : Bytes) : Option Bytes := do
  let m ← minifyLoop (json.length + 1) { buffer := json, json := 0, into := 0 }
  store m.buffer m.into 0

/-! ### The text that is left -/

def isBlank (c : UInt8) : Bool :=
  c = ascii ' ' || c = ascii '\t' || c = ascii '\r' || c = ascii '\n'

/-- What is behind a comment that ends with the line. -/
def afterLine : Bytes → Bytes
  | [] => []
  | c :: s => if c = ascii '\n' then s else afterLine s

/-- What is behind the end of a comment. -/
def afterComment : Bytes → Bytes
  | [] => []
  | [_] => []
  | c :: d :: s => if c = ascii '*' ∧ d = ascii '/' then s else afterComment (d :: s)

/-- A string up to its closing quote, and what is behind it. A quote behind a backslash does not
close it. -/
def splitString : Bytes → Bytes × Bytes
  | [] => ([], [])
  | [c] => ([c], [])
  | c :: d :: s =>
    if c = ascii '"' then ([c], d :: s)
    else if c = ascii '\\' ∧ d = ascii '"' then (c :: d :: (splitString s).1, (splitString s).2)
    else (c :: (splitString (d :: s)).1, (splitString (d :: s)).2)

theorem length_afterLine_le (s : Bytes) : (afterLine s).length ≤ s.length := by
  fun_induction afterLine s with
  | case1 => exact Nat.le_refl 0
  | case2 => exact Nat.le_succ _
  | case3 c s _ ih => exact Nat.le_succ_of_le ih

theorem length_afterComment_le (s : Bytes) : (afterComment s).length ≤ s.length := by
  fun_induction afterComment s with
  | case1 => exact Nat.le_refl 0
  | case2 => exact Nat.zero_le _
  | case3 c d s => exact Nat.le_add_right _ 2
  | case4 c d s _ ih => exact Nat.le_succ_of_le ih

theorem splitString_append (s : Bytes) : (splitString s).1 ++ (splitString s).2 = s := by
  fun_induction splitString s with
  | case1 => rfl
  | case2 => rfl
  | case3 => rfl
  | case4 c d s _ _ ih => rw [List.cons_append, List.cons_append, ih]
  | case5 c d s _ _ ih => rw [List.cons_append, ih]

theorem length_splitString_le (s : Bytes) : (splitString s).2.length ≤ s.length := by
  have hlen := congrArg List.length (splitString_append s)
  rw [List.length_append] at hlen
  omega

/-- The text without the blanks, the comments and the other slashes outside its quotes. -/
def minified : Bytes → Bytes
  | [] => []
  | c :: s =>
    if isBlank c then minified s
    else if c = ascii '/' then
      if s.head? = some (ascii '/') then minified (afterLine s.tail)
      else if s.head? = some (ascii '*') then minified (afterComment s.tail)
      else minified s
    else if c = ascii '"' then c :: (splitString s).1 ++ minified (splitString s).2
    else c :: minified s
termination_by s => s.length
decreasing_by
  · exact Nat.lt_succ_self _
  · have := length_afterLine_le s.tail
    rw [List.length_tail] at this
    rw [List.length_cons]
    omega
  · have := length_afterComment_le s.tail
    rw [List.length_tail] at this
    rw [List.length_cons]
    omega
  · exact Nat.lt_succ_self _
  · exact Nat.lt_succ_of_le (length_splitString_le s)
  · exact Nat.lt_succ_self _

end Json
end CFunction
