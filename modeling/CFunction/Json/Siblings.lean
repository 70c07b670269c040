import CFunction.Json.Item
import CFunction.Misc.Heap

/-!
# The children of an array or object

The items under an item are linked by `next` and `prev`. The last one has no next one, and `prev`
of the first one leads to the last one. The memory has one map for each field, and every pointer
that the source follows or writes is one step, in the order of the source. No item is a reference.
-/

namespace CFunction
namespace Siblings

open Json

/-- The links and the name of every `cJSON`. -/
structure Memory where
  live : Ptr → Bool
  next : Ptr → Ptr
  prev : Ptr → Ptr
  child : Ptr → Ptr
  string : Ptr → Option Str
  null : live 0 = false

/-- Nothing is allocated. -/
def Memory.empty : Memory where
  live _ := false
  next _ := 0
  prev _ := 0
  child _ := 0
  string _ := none
  null := rfl

/-! ### Steps -/

def getNext (h : Memory) (p : Ptr) : Option Ptr := if h.live p then some (h.next p) else none

def getPrev (h : Memory) (p : Ptr) : Option Ptr := if h.live p then some (h.prev p) else none

def getChild (h : Memory) (p : Ptr) : Option Ptr := if h.live p then some (h.child p) else none

def setNext (h : Memory) (p next : Ptr) : Option Memory :=
  if h.live p then some { h with next := Function.update h.next p next } else none

def setPrev (h : Memory) (p prev : Ptr) : Option Memory :=
  if h.live p then some { h with prev := Function.update h.prev p prev } else none

def setChild (h : Memory) (p child : Ptr) : Option Memory :=
  if h.live p then some { h with child := Function.update h.child p child } else none

/-- `cJSON_New_Item`, when the allocator answers with `p`. -/
def newItem (h : Memory) (p : Ptr) : Option Memory :=
  if hp : p ≠ 0 ∧ h.live p = false then
    some {
      live := Function.update h.live p true
      next := Function.update h.next p 0
      prev := Function.update h.prev p 0
      child := Function.update h.child p 0
      string := Function.update h.string p none
      null := by rw [Function.update_of_ne hp.1.symm]; exact h.null }
  else none

/-- `deallocate(item)`; the texts of an item go with it. -/
def freeItem (h : Memory) (p : Ptr) : Option Memory :=
  if h.live p then
    some { h with
      live := Function.update h.live p false
      null := by
        by_cases hp : (0 : Ptr) = p
        · rw [← hp, Function.update_self]
        · rw [Function.update_of_ne hp, h.null] }
  else none

/-! ### Lists -/

def suffixObject (h : Memory) (prev item : Ptr) : Option Memory := do
  let h ← setNext h prev item
  setPrev h item prev

/-- `add_item_to_array` -/
def addItemToArray (h : Memory) (array item : Ptr) : Option (Memory × Bool) :=
  if item = 0 ∨ array = 0 ∨ array = item then some (h, false)
  else do
    let child ← getChild h array
    if child = 0 then
      let h ← setChild h array item
      let h ← setPrev h item item
      let h ← setNext h item 0
      some (h, true)
    else
      let last ← getPrev h child
      if last ≠ 0 then
        let h ← suffixObject h last item
        let h ← setPrev h child item
        some (h, true)
      else some (h, true)

/-- The loop of `get_array_item`. -/
def getArrayItem (h : Memory) : Ptr → Nat → Option Ptr
  | currentChild, 0 => some currentChild
  | currentChild, index + 1 =>
    if currentChild = 0 then some 0
    else do
      let next ← getNext h currentChild
      getArrayItem h next index

/-- `cJSON_DetachItemViaPointer` -/
def detachItemViaPointer (h : Memory) (parent item : Ptr) : Option (Memory × Ptr) :=
  if parent = 0 ∨ item = 0 then some (h, 0)
  else do
    let child ← getChild h parent
    let h ←
      if item ≠ child then do
        let prev ← getPrev h item
        let next ← getNext h item
        setNext h prev next
      else some h
    let next ← getNext h item
    let h ←
      if next ≠ 0 then do
        let prev ← getPrev h item
        setPrev h next prev
      else some h
    let next ← getNext h item
    let h ←
      if item = child then setChild h parent next
      else if next = 0 then do
        let prev ← getPrev h item
        setPrev h child prev
      else some h
    let h ← setPrev h item 0
    let h ← setNext h item 0
    some (h, item)

/-- `cJSON_InsertItemInArray` -/
def insertItemInArray (h : Memory) (array : Ptr) (which : Int) (newitem : Ptr) :
    Option (Memory × Bool) :=
  if which < 0 then some (h, false)
  else do
    let child ← getChild h array
    let afterInserted ← getArrayItem h child which.toNat
    if afterInserted = 0 then addItemToArray h array newitem
    else
      let h ← setNext h newitem afterInserted
      let prev ← getPrev h afterInserted
      let h ← setPrev h newitem prev
      let h ← setPrev h afterInserted newitem
      let h ←
        if afterInserted = child then setChild h array newitem
        else do
          let prev ← getPrev h newitem
          setNext h prev newitem
      some (h, true)

/-- `cJSON_Delete` of items that are no references, within `fuel` calls and rounds. -/
def deleteItem : Nat → Memory → Ptr → Option Memory
  | 0, _, _ => none
  | fuel + 1, h, item =>
    if item = 0 then some h
    else do
      let next ← getNext h item
      let child ← getChild h item
      let h ← if child ≠ 0 then deleteItem fuel h child else some h
      let h ← freeItem h item
      deleteItem fuel h next

/-- The links that `cJSON_ReplaceItemViaPointer` sets. -/
def replaceLinks (h : Memory) (parent item replacement : Ptr) : Option Memory := do
  let next ← getNext h item
  let h ← setNext h replacement next
  let prev ← getPrev h item
  let h ← setPrev h replacement prev
  let next ← getNext h replacement
  let h ← if next ≠ 0 then setPrev h next replacement else some h
  let child ← getChild h parent
  let h ←
    if child = item then do
      let last ← getPrev h child
      let h ← if last = child then setPrev h replacement replacement else some h
      setChild h parent replacement
    else do
      let prev ← getPrev h replacement
      let h ← if prev ≠ 0 then setNext h prev replacement else some h
      let next ← getNext h replacement
      if next = 0 then setPrev h child replacement else some h
  let h ← setNext h item 0
  setPrev h item 0

/-- `cJSON_ReplaceItemViaPointer`; the item that is replaced is deleted within `fuel` calls and
rounds. -/
def replaceItemViaPointer (fuel : Nat) (h : Memory) (parent item replacement : Ptr) :
    Option (Memory × Bool) :=
  if parent = 0 ∨ replacement = 0 ∨ item = 0 then some (h, false)
  else if replacement = item then some (h, true)
  else do
    let h ← replaceLinks h parent item replacement
    let h ← deleteItem fuel h item
    some (h, true)

end Siblings
end CFunction
