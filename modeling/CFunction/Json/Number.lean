import CFunction.Json.Item
import CFunction.Misc.Numeral

/-!
# Numbers in a text

What `strtod` and `strtoll` take of a text, and the text of `print_number`. The texts hold only
the characters that `parse_number` copies. The value of a `double` is left to the platform.
-/

namespace CFunction
namespace Json

open CString Numeral

/-- What is used of the `double` of the platform. -/
structure Doubles (ν : Type) where
  /-- The value of a literal. -/
  strtod : Bytes → ν
  isnan : ν → Bool
  isinf : ν → Bool
  /-- `sprintf` of `"%1.15g"` and `"%1.17g"`, by the precision. -/
  sprintf : Nat → ν → Bytes
  compareDouble : ν → ν → Bool

variable {ν : Type}

def isDigit (c : UInt8) : Bool := 48 ≤ c && c ≤ 57

/-- The characters that `parse_number` copies. -/
def isNumberChar (c : UInt8) : Bool := isDigit c || c ∈ text "+-eE."

/-! ### Literals -/

def signLength : Bytes → Nat
  | [] => 0
  | c :: _ => if c = ascii '+' ∨ c = ascii '-' then 1 else 0

def digitsLength (s : Bytes) : Nat := (s.takeWhile isDigit).length

/-- Digits, a point and digits, with one digit at least. -/
def mantissaLength (s : Bytes) : Nat :=
  let i := digitsLength s
  match s.drop i with
  | [] => i
  | c :: rest =>
    if c = ascii '.' then
      if i + digitsLength rest = 0 then 0 else i + 1 + digitsLength rest
    else i

/-- An exponent, which counts only when it has a digit. -/
def exponentLength : Bytes → Nat
  | [] => 0
  | c :: rest =>
    if c = ascii 'e' ∨ c = ascii 'E' then
      let sign := signLength rest
      let digits := digitsLength (rest.drop sign)
      if digits = 0 then 0 else 1 + sign + digits
    else 0

/-- How many characters `strtod` takes. -/
def strtodLength (s : Bytes) : Nat :=
  let sign := signLength s
  let mantissa := mantissaLength (s.drop sign)
  if mantissa = 0 then 0 else sign + mantissa + exponentLength (s.drop (sign + mantissa))

/-- The nearest `long long`. -/
def saturate (n : Int) : Int64 :=
  Int64.ofInt (max (-9223372036854775808) (min 9223372036854775807 n))

/-- `strtoll` in radix 10: the number, and how many characters it takes. -/
def strtoll (s : Bytes) : Int64 × Nat :=
  let sign := signLength s
  let digits := digitsLength (s.drop sign)
  match readDigits 10 ((s.drop sign).take digits) with
  | none => (0, 0)
  | some n => (saturate (if s.head? = some (ascii '-') then -(n : Int) else n), sign + digits)

/-! ### Printing -/

/-- `sprintf` of `"%lld"`. -/
def sprintfLld (n : Int64) : Bytes :=
  let digits := (digitsOf 10 n.toInt.natAbs).reverse.map digitChar
  if n.toInt < 0 then ascii '-' :: digits else digits

/-- `sscanf` of `"%lg"`. -/
def sscanfLg (D : Doubles ν) (s : Bytes) : Option ν :=
  if strtodLength s = 0 then none else some (D.strtod (s.take (strtodLength s)))

/-- The first text of a `double` in the number buffer. -/
def sprintfFirst (D : Doubles ν) (d : ν) : Bytes :=
  if D.isnan d || D.isinf d then text "null" else D.sprintf 15 d

/-- The `double` of `print_number`: 17 digits when 15 are not enough to get it back. -/
def sprintfDouble (D : Doubles ν) (d : ν) : Bytes :=
  if D.isnan d || D.isinf d then sprintfFirst D d
  else
    match sscanfLg D (sprintfFirst D d) with
    | none => D.sprintf 17 d
    | some test => if D.compareDouble test d then sprintfFirst D d else D.sprintf 17 d

/-- A `double` that is always one half. -/
def half : Doubles Unit where
  strtod _ := ()
  isnan _ := false
  isinf _ := false
  sprintf _ _ := text "0.5"
  compareDouble _ _ := true

end Json
end CFunction
