import CFunction.Json.Compare
import CFunction.Json.Siblings

/-!
# Sorting the members of an object

`sort_list`, a merge sort that relinks the items. Each loop, and the recursion, takes at most as
many turns as the list has items.
-/

namespace CFunction
namespace Siblings

open Json

/-- `compare_strings(a->string, b->string, case_sensitive) < 0` -/
def comesBefore (h : Memory) (caseSensitive : Bool) (a b : Ptr) : Option Bool :=
  if h.live a ∧ h.live b then some (before caseSensitive (h.string a) (h.string b)) else none

/-- Whether the test for a list that is sorted comes to the end of the list. -/
def sortedLoop (h : Memory) (caseSensitive : Bool) : Nat → Ptr → Option Bool
  | 0, _ => none
  | n + 1, currentItem =>
    if currentItem = 0 then some true
    else do
      let next ← getNext h currentItem
      if next = 0 then some true
      else if ← comesBefore h caseSensitive currentItem next then
        sortedLoop h caseSensitive n next
      else some false

/-- Walks two pointers to find the middle. -/
def middleLoop (h : Memory) : Nat → Ptr → Ptr → Option Ptr
  | 0, _, _ => none
  | n + 1, second, currentItem =>
    if currentItem = 0 then some second
    else do
      let second ← getNext h second
      let currentItem ← getNext h currentItem
      let currentItem ← if currentItem ≠ 0 then getNext h currentItem else some currentItem
      middleLoop h n second currentItem

/-- Splits the list in front of `second`. -/
def splitBefore (h : Memory) (second : Ptr) : Option Memory :=
  if second = 0 then some h
  else do
    let prev ← getPrev h second
    if prev = 0 then some h
    else
      let h ← setNext h prev 0
      setPrev h second 0

/-- The heads of the sublists, and the two ends of the merged list. -/
structure Merging where
  first : Ptr
  second : Ptr
  result : Ptr
  resultTail : Ptr

/-- Adds the smaller element to the merged list. -/
def mergeLoop (h : Memory) (caseSensitive : Bool) : Nat → Merging → Option (Memory × Merging)
  | 0, _ => none
  | n + 1, m =>
    if m.first = 0 ∨ m.second = 0 then some (h, m)
    else do
      let smaller :=
        if ← comesBefore h caseSensitive m.first m.second then m.first else m.second
      let h ←
        if m.result = 0 then some h
        else do
          let h ← setNext h m.resultTail smaller
          setPrev h smaller m.resultTail
      let result := if m.result = 0 then smaller else m.result
      if m.first = smaller then
        let first ← getNext h m.first
        mergeLoop h caseSensitive n
          { m with first := first, result := result, resultTail := smaller }
      else
        let second ← getNext h m.second
        mergeLoop h caseSensitive n
          { m with second := second, result := result, resultTail := smaller }

/-- Appends what is left of a list. -/
def appendRest (h : Memory) (m : Merging) (rest : Ptr) : Option (Memory × Ptr) :=
  if m.result = 0 then some (h, rest)
  else do
    let h ← setNext h m.resultTail rest
    let h ← setPrev h rest m.resultTail
    some (h, m.result)

/-- Merges two sorted lists of `n` items together. -/
def mergeLists (h : Memory) (caseSensitive : Bool) (n : Nat) (first second : Ptr) :
    Option (Memory × Ptr) := do
  let (h, m) ← mergeLoop h caseSensitive (n + 1)
    { first := first, second := second, result := 0, resultTail := 0 }
  -- one of the two lists is empty by now
  if m.first ≠ 0 then appendRest h m m.first
  else if m.second ≠ 0 then appendRest h m m.second
  else some (h, m.result)

def sortList (caseSensitive : Bool) : Nat → Memory → Ptr → Option (Memory × Ptr)
  | 0, _, _ => none
  | n + 1, h, list =>
    if list = 0 then some (h, list)
    else do
      let next ← getNext h list
      if next = 0 then some (h, list)
      else if ← sortedLoop h caseSensitive (n + 1) list then some (h, list)
      else
        let second ← middleLoop h (n + 1) list list
        let h ← splitBefore h second
        let (h, first) ← sortList caseSensitive n h list
        let (h, second) ← sortList caseSensitive n h second
        mergeLists h caseSensitive n first second

/-- `sort_object` of an object with `n` members. -/
def sortObject (caseSensitive : Bool) (n : Nat) (h : Memory) (object : Ptr) : Option Memory :=
  if object = 0 then some h
  else do
    let child ← getChild h object
    let (h, child) ← sortList caseSensitive (n + 1) h child
    setChild h object child

end Siblings
end CFunction
