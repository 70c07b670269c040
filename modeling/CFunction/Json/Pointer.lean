import CFunction.Json.Compare
import CFunction.Misc.Numeral

/-!
# JSON pointers

The pointer that `cJSONUtils_FindPointerFromObjectTo` writes for an item, and the item that
`get_item_from_pointer` finds for a pointer. An item under another one is told by its place: the
indices of the children that lead to it.
-/

namespace CFunction
namespace Json

open CString Numeral

variable {ν : Type}

/-! ### Names in a pointer -/

/-- `compare_pointers`: the name and the next token of the pointer. -/
def comparePointers (caseSensitive : Bool) : Bytes → Bytes → Bool
  | [], [] => true
  | [], p :: _ => p = ascii '/'
  | _ :: _, [] => false
  | n :: name, p :: pointer =>
    if p = ascii '/' then false
    else if p = ascii '~' then
      match pointer with
      | [] => false
      | e :: pointer =>
        if (e ≠ ascii '0' ∨ n ≠ ascii '~') ∧ (e ≠ ascii '1' ∨ n ≠ ascii '/') then false
        else comparePointers caseSensitive name pointer
    else if (¬ caseSensitive ∧ tolower n ≠ tolower p) ∨ (caseSensitive ∧ n ≠ p) then false
    else comparePointers caseSensitive name pointer

/-- `pointer_encoded_length` -/
def pointerEncodedLength : Bytes → Nat
  | [] => 0
  | c :: string =>
    (if c = ascii '~' ∨ c = ascii '/' then 2 else 1) + pointerEncodedLength string

/-- `encode_string_as_pointer` -/
def encodeStringAsPointer : Bytes → Bytes
  | [] => []
  | c :: source =>
    (if c = ascii '/' then [ascii '~', ascii '1']
      else if c = ascii '~' then [ascii '~', ascii '0']
      else [c]) ++ encodeStringAsPointer source

/-! ### Indices in a pointer -/

/-- `sprintf` of `"%lu"`. -/
def sprintfLu (n : Nat) : Bytes := (digitsOf 10 n).reverse.map digitChar

/-- The loop of `decode_array_index_from_pointer`, whose second test looks at the first character
each time. -/
def indexLoop (first : UInt8) (parsedIndex : Nat) : Bytes → Nat × Bytes
  | [] => (parsedIndex, [])
  | c :: pointer =>
    if ascii '0' ≤ c ∧ first ≤ ascii '9' then
      indexLoop first ((10 * parsedIndex + (c.toNat - 48)) % 18446744073709551616) pointer
    else (parsedIndex, c :: pointer)

/-- Nothing more of the token. -/
def tokenEnds : Bytes → Bool
  | [] => true
  | c :: _ => c = ascii '/'

/-- `decode_array_index_from_pointer` -/
def decodeArrayIndexFromPointer (pointer : Bytes) : Option Nat :=
  if pointer.head? = some (ascii '0') ∧ ¬ tokenEnds pointer.tail then none
  else
    let (parsedIndex, rest) := indexLoop (pointer.headD 0) 0 pointer
    if tokenEnds rest then some parsedIndex else none

/-! ### Looking up -/

/-- The skip to the next token. -/
def skipToken (pointer : Bytes) : Bytes := pointer.dropWhile (· ≠ ascii '/')

theorem length_skipToken_le (pointer : Bytes) : (skipToken pointer).length ≤ pointer.length :=
  (List.dropWhile_suffix _).length_le

/-- The child that the next token of a pointer means, and its index. -/
def tokenItem (caseSensitive : Bool) (item : Item ν) (pointer : Bytes) : Option (Nat × Item ν) :=
  match item with
  | .array child => do
    let index ← decodeArrayIndexFromPointer pointer
    let element ← child[index]?
    some (index, element)
  | .object child => do
    let index ← child.findIdx? fun member => comparePointers caseSensitive member.1.val pointer
    let member ← child[index]?
    some (index, member.2)
  | _ => none

/-- `get_item_from_pointer`: the place of the item that is found, from the one at `here`, and the
item. -/
def getItemFromPointer (caseSensitive : Bool) (here : List Nat) (item : Item ν) :
    Bytes → Option (List Nat × Item ν)
  | [] => some (here, item)
  | c :: pointer =>
    if c = ascii '/' then
      match tokenItem caseSensitive item pointer with
      | none => none
      | some (index, child) =>
        getItemFromPointer caseSensitive (here ++ [index]) child (skipToken pointer)
    else some (here, item)
termination_by pointer => pointer.length
decreasing_by exact Nat.lt_succ_of_le (length_skipToken_le pointer)

/-! ### Searching -/

mutual

/-- `cJSONUtils_FindPointerFromObjectTo`, from the item at `here` to the one at `target`. -/
def findPointer (here target : List Nat) : Item ν → Option Bytes
  | .array child => if here = target then some [] else findInArray here target 0 child
  | .object child => if here = target then some [] else findInObject here target 0 child
  | _ => if here = target then some [] else none

/-- The loop over the elements. -/
def findInArray (here target : List Nat) (childIndex : Nat) : List (Item ν) → Option Bytes
  | [] => none
  | item :: rest =>
    match findPointer (here ++ [childIndex]) target item with
    | some targetPointer => some (ascii '/' :: sprintfLu childIndex ++ targetPointer)
    | none => findInArray here target (childIndex + 1) rest

/-- The loop over the members. -/
def findInObject (here target : List Nat) (childIndex : Nat) : List (Str × Item ν) → Option Bytes
  | [] => none
  | (name, item) :: rest =>
    match findPointer (here ++ [childIndex]) target item with
    | some targetPointer => some (ascii '/' :: encodeStringAsPointer name.val ++ targetPointer)
    | none => findInObject here target (childIndex + 1) rest

end

end Json
end CFunction
