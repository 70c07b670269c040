import CFunction.Misc.CInt
import CFunction.Misc.CString

/-!
# Integer to text

`itoa` of `src/common_itoa.c`, which `src/database/sqlite.c` has a copy of. The loops run over
the buffer `str`; every round of either stores at another index, so the length of `str` bounds
the number of rounds, and a round behind its end has no result.
-/

namespace CFunction
namespace Itoa

open CString

/-- `index` (`common_itoa.c:5`), with its NUL. -/
def index : Bytes := text "0123456789ABCDEF" ++ [0]

/-- Conversion to `unsigned`. -/
def toUnsigned (x : Int) : Nat := (x % 4294967296).toNat

/-- The `do` loop (`common_itoa.c:17-20`): the buffer and `i` after it. -/
def digitLoop (radix : Nat) : Nat → Bytes → Int → Nat → Option (Bytes × Int)
  | 0, _, _, _ => none
  | fuel + 1, str, i, unum =>
    if radix = 0 then none
    else do
      let c ← index[unum % radix]?
      let str ← store str i c
      let i := toInt32 (i + 1)
      let unum := unum / radix
      if unum ≠ 0 then digitLoop radix fuel str i unum else some (str, i)

/-- The `for` loop (`common_itoa.c:29-33`). -/
def swapLoop (i k : Int) : Nat → Bytes → Int → Option Bytes
  | 0, str, j => if j ≤ (i - 1).tdiv 2 then none else some str
  | fuel + 1, str, j =>
    if j ≤ (i - 1).tdiv 2 then do
      let tmp ← load str j
      let c ← load str (i - 1 + k - j)
      let str ← store str j c
      let str ← store str (i - 1 + k - j) tmp
      swapLoop i k fuel str (toInt32 (j + 1))
    else some str

/-- `itoa` (`common_itoa.c:3-36`, `sqlite.c:209-242`): the buffer as it leaves it. -/
def itoa (num : Int) (str : Bytes) (radix : Int) : Option Bytes := do
  let neg : Bool := radix = 10 ∧ num < 0
  let unum := if neg then toUnsigned (toInt32 (-num)) else toUnsigned num
  let (str, i) ← if neg then (store str 0 (ascii '-')).map (·, 1) else some (str, 0)
  let (str, i) ← digitLoop (toUnsigned radix) str.length str i unum
  let str ← store str i 0
  let first ← load str 0
  let k := if first = ascii '-' then 1 else 0
  swapLoop i k str.length str k

end Itoa
end CFunction
