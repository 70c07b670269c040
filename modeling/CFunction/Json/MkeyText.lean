import CFunction.Json.Mkey
import CFunction.Json.Parse
import CFunction.Json.Print

/-!
# The text of the device key

`marshal_mkey` with the printer, and `unmarshal_mkey` with the parser. The record is written to a
tree, whose item is printed; of a parsed item the tree is read. Every item that `marshal_mkey`
creates is asked for, with the copies of its name and string, and may be refused; the memory of the
parser is granted.
-/

namespace CFunction
namespace DeviceKey

open CString Json

variable {ν : Type}

mutual

/-- The item of a tree that holds no `double`. -/
def itemOf : CJson → Option (Item ν)
  | .null => some .null
  | .bool valueint => some (.bool valueint)
  | .int valueint => some (.int (Int64.ofInt valueint))
  | .double => none
  | .string valuestring => some (.string (Str.ofBytes valuestring))
  | .array items => (itemsOf items).map .array
  | .object members => (membersOf members).map .object

def itemsOf : List CJson → Option (List (Item ν))
  | [] => some []
  | tree :: rest => do
    let item ← itemOf tree
    let rest ← itemsOf rest
    some (item :: rest)

def membersOf : List (Bytes × CJson) → Option (List (Str × Item ν))
  | [] => some []
  | (name, tree) :: rest => do
    let item ← itemOf tree
    let rest ← membersOf rest
    some ((Str.ofBytes name, item) :: rest)

end

mutual

/-- The tree of an item without raw text, which no text is parsed as. -/
def treeOf : Item ν → Option CJson
  | .null => some .null
  | .bool valueint => some (.bool valueint)
  | .int valueint => some (.int valueint.toInt)
  | .number _ => some .double
  | .string valuestring => some (.string valuestring.val)
  | .raw _ => none
  | .array child => (treesOf child).map .array
  | .object child => (treeMembersOf child).map .object

def treesOf : List (Item ν) → Option (List CJson)
  | [] => some []
  | item :: rest => do
    let tree ← treeOf item
    let rest ← treesOf rest
    some (tree :: rest)

def treeMembersOf : List (Str × Item ν) → Option (List (Bytes × CJson))
  | [] => some []
  | (name, item) :: rest => do
    let tree ← treeOf item
    let rest ← treeMembersOf rest
    some ((name.val, tree) :: rest)

end

/-! ### Items that may be refused -/

/-- A part of a call that asks for memory, after the sizes that were asked for. -/
abbrev Asking (α : Type) : Type := StateT (List Nat) (Except PrintStop) α

def malloc (hooks : Hooks) (size : Nat) : Asking Unit := fun asked =>
  if hooks.allocate asked size then .ok ((), size :: asked)
  else .error (.failed (.allocation asked size))

/-- `sizeof(cJSON)`, with pointers of 8 bytes -/
def sizeofItem : Nat := 64

/-- `cJSON_New_Item` -/
def newItem (hooks : Hooks) : Asking Unit := malloc hooks sizeofItem

end DeviceKey
end CFunction
