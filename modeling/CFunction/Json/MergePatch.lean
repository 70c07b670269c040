import CFunction.Json.Compare
import CFunction.Json.Number

/-!
# Merge patches

`merge_patch`, which changes an item as a merge patch says, and `generate_merge_patch`, which
finds a patch from one item to another. An object is the list of its members, and a member is
told by its name, with or without the case of the letters. The sorting of the members in place is
left to the lists that are walked.
-/

namespace CFunction
namespace Json

open CString

variable {ν : Type}

/-! ### Members of an object -/

def sameName (caseSensitive : Bool) (name : Str) (member : Str × Item ν) : Bool :=
  spelling caseSensitive name.val = spelling caseSensitive member.1.val

/-- `cJSON_DetachItemFromObject`: the item, and what is left. -/
def detachItem (caseSensitive : Bool) (child : List (Str × Item ν)) (name : Str) :
    Option (Item ν) × List (Str × Item ν) :=
  ((child.find? (sameName caseSensitive name)).map Prod.snd,
    child.eraseP (sameName caseSensitive name))

/-- `cJSON_AddItemToObject` -/
def addItem (child : List (Str × Item ν)) (name : Str) (item : Item ν) : List (Str × Item ν) :=
  child ++ [(name, item)]

def Item.isNull : Item ν → Bool
  | .null => true
  | _ => false

/-- The members of an object. What is no object is thrown away for an empty one. -/
def objectChild : Option (Item ν) → List (Str × Item ν)
  | some (.object child) => child
  | _ => []

/-! ### Merging -/

mutual

/-- `merge_patch`, where the target may be `NULL`. -/
def mergePatch (caseSensitive : Bool) (target : Option (Item ν)) : Item ν → Item ν
  | .object patchChild => .object (mergeMembers caseSensitive (objectChild target) patchChild)
  | patch => patch

/-- The loop over the members of the patch. -/
def mergeMembers (caseSensitive : Bool) (target : List (Str × Item ν)) :
    List (Str × Item ν) → List (Str × Item ν)
  | [] => target
  | (name, patch) :: rest =>
    let (replaceMe, target) := detachItem caseSensitive target name
    if patch.isNull then mergeMembers caseSensitive target rest
    else
      let replacement := mergePatch caseSensitive replaceMe patch
      mergeMembers caseSensitive (addItem target name replacement) rest

end

/-! ### Comparing -/

/-- What `sort_object` leaves of a list, whose elements have names. -/
def sortObject {β : Type} (caseSensitive : Bool) (child : List (Str × β)) : List (Str × β) :=
  child.mergeSort fun a b => before caseSensitive (some a.1) (some b.1)

/-- The loop of `compare_json` over two sorted objects, the first of which has for every member
what compares its item. -/
def compareSorted (caseSensitive : Bool) :
    List (Str × (Item ν → Bool)) → List (Str × Item ν) → Bool
  | [], [] => true
  | (name, compare) :: a, (name', item) :: b =>
    compareStrings caseSensitive (some name) (some name') = 0 && compare item &&
      compareSorted caseSensitive a b
  | _, _ => false

mutual

/-- `compare_json`. The `valueint` of a number comes from its `double`. -/
def compareJson (D : Doubles ν) (valueint : ν → Int64) (caseSensitive : Bool) :
    Item ν → Item ν → Bool
  | .number a, .number b => valueint a = valueint b && D.compareDouble a b
  | .int a, .int b => a = b
  | .string a, .string b => strcmp a.val b.val = 0
  | .array a, .array b => compareElements D valueint caseSensitive a b
  | .object a, .object b =>
    compareSorted caseSensitive (sortObject caseSensitive (comparers D valueint caseSensitive a))
      (sortObject caseSensitive b)
  -- the types are equal, and this is all that is compared
  | .null, .null => true
  | .bool _, .bool _ => true
  | .raw _, .raw _ => true
  | _, _ => false

/-- The loop over two arrays. -/
def compareElements (D : Doubles ν) (valueint : ν → Int64) (caseSensitive : Bool) :
    List (Item ν) → List (Item ν) → Bool
  | [], [] => true
  | a :: as, b :: bs =>
    compareJson D valueint caseSensitive a b && compareElements D valueint caseSensitive as bs
  | _, _ => false

/-- What compares the item of each member. -/
def comparers (D : Doubles ν) (valueint : ν → Int64) (caseSensitive : Bool) :
    List (Str × Item ν) → List (Str × (Item ν → Bool))
  | [] => []
  | (name, item) :: rest =>
    (name, compareJson D valueint caseSensitive item) :: comparers D valueint caseSensitive rest

end

/-! ### Generating -/

/-- A member to be reached, and the patch that leads from an item to it. -/
structure Target (ν : Type) where
  item : Item ν
  patchFrom : Item ν → Option (Item ν)

/-- The loop of `generate_merge_patch` over the two sorted objects, which gives the members of the
patch. -/
def generateSorted (compare : Item ν → Item ν → Bool) :
    List (Str × Item ν) → List (Str × Target ν) → List (Str × Item ν)
  | [], [] => []
  | (name, _) :: fromChild, [] => (name, .null) :: generateSorted compare fromChild []
  | [], (name, target) :: toChild => (name, target.item) :: generateSorted compare [] toChild
  | (name, item) :: fromChild, (name', target) :: toChild =>
    let diff := strcmp name.val name'.val
    if diff < 0 then (name, .null) :: generateSorted compare fromChild ((name', target) :: toChild)
    else if 0 < diff then
      (name', target.item) :: generateSorted compare ((name, item) :: fromChild) toChild
    else if compare item target.item then generateSorted compare fromChild toChild
    else
      match target.patchFrom item with
      -- nothing is added for `NULL`
      | none => generateSorted compare fromChild toChild
      | some patch => (name', patch) :: generateSorted compare fromChild toChild
termination_by fromChild toChild => fromChild.length + toChild.length

mutual

/-- `generate_merge_patch`, which is `NULL` when nothing has to be patched. -/
def generateMergePatch (D : Doubles ν) (valueint : ν → Int64) (caseSensitive : Bool)
    (fromItem : Item ν) : Item ν → Option (Item ν)
  | .object toChild =>
    match fromItem with
    | .object fromChild =>
      let patch := generateSorted (compareJson D valueint caseSensitive)
        (sortObject caseSensitive fromChild) (sortObject caseSensitive (targets D valueint toChild))
      if patch.isEmpty then none else some (.object patch)
    | _ => some (.object toChild)
  | toItem => some toItem

/-- The members to be reached. Below the first object the case of the names never counts. -/
def targets (D : Doubles ν) (valueint : ν → Int64) : List (Str × Item ν) → List (Str × Target ν)
  | [] => []
  | (name, item) :: rest =>
    (name, ⟨item, fun fromItem => generateMergePatch D valueint false fromItem item⟩) ::
      targets D valueint rest

end

end Json
end CFunction
