import CFunction.Misc.Runs

/-!
# Bounded FIFO queues

The abstract queue is a list, oldest item first, with a capacity. Its labels carry the answers,
so a run of `Fifo.Step` is a history of operations together with what they reported.
-/

namespace CFunction.Fifo

variable {α : Type*}

/-- An operation and its answer. -/
inductive Op (α : Type*)
  | put (a : α) (accepted : Bool)
  | take (item : Option α)
  | isFull (answer : Bool)
  | isEmpty (answer : Bool)

/-- One operation on a queue of capacity `cap`. -/
inductive Step (cap : Nat) : List α → Op α → List α → Prop
  | put {xs : List α} (a : α) (room : xs.length < cap) : Step cap xs (.put a true) (xs ++ [a])
  | putFull {xs : List α} (a : α) (full : ¬ xs.length < cap) : Step cap xs (.put a false) xs
  | take {xs : List α} (a : α) : Step cap (a :: xs) (.take (some a)) xs
  | takeEmpty : Step cap [] (.take none) []
  | isFull {xs : List α} : Step cap xs (.isFull (decide (xs.length = cap))) xs
  | isEmpty {xs : List α} : Step cap xs (.isEmpty (decide (xs.length = 0))) xs

/-- An operation without its answer. -/
inductive Request (α : Type*)
  | put (a : α)
  | take
  | isFull
  | isEmpty

/-- The queue as a function: the answered operation and the queue after it. -/
def perform (cap : Nat) (xs : List α) : Request α → Op α × List α
  | .put a => if xs.length < cap then (.put a true, xs ++ [a]) else (.put a false, xs)
  | .take => match xs with
    | [] => (.take none, [])
    | x :: xs => (.take (some x), xs)
  | .isFull => (.isFull (decide (xs.length = cap)), xs)
  | .isEmpty => (.isEmpty (decide (xs.length = 0)), xs)

/-- The items accepted by a history, oldest first. -/
def accepted (ops : List (Op α)) : List α :=
  ops.filterMap fun
    | .put a true => some a
    | _ => none

/-- The items handed out by a history, in order. -/
def taken (ops : List (Op α)) : List α :=
  ops.filterMap fun
    | .take item => item
    | _ => none

/-- What one operation moves: what it hands out and leaves is what was there and what it took
in. -/
theorem step_moves {cap : Nat} {xs ys : List α} {op : Op α} (h : Step cap xs op ys) :
    taken [op] ++ ys = xs ++ accepted [op] := by
  cases h with
  | put a _ => simp [taken, accepted]
  | take a => simp [taken, accepted]
  | _ => simp [taken, accepted]

/-- One operation keeps the balance between what came in, what went out and what is stored. -/
theorem step_balance {cap : Nat} {ops : List (Op α)} {xs ys : List α} {op : Op α}
    (balance : taken ops ++ xs = accepted ops) (h : Step cap xs op ys) :
    taken (ops ++ [op]) ++ ys = accepted (ops ++ [op]) := by
  cases h with
  | put a _ => simp [taken, accepted, List.filterMap_append] at balance ⊢; rw [← balance]; simp
  | take a => simpa [taken, accepted, List.filterMap_append] using balance
  | _ => simpa [taken, accepted, List.filterMap_append] using balance

/-- Nothing is lost, duplicated or reordered: what went out, followed by what is stored, is
what came in. -/
theorem run_balance {cap : Nat} {ops : List (Op α)} {xs : List α}
    (run : Run (Step cap) [] ops xs) : taken ops ++ xs = accepted ops :=
  run.invariant (P := fun ops xs => taken ops ++ xs = accepted ops) rfl
    fun _ _ _ _ balance h => step_balance balance h

end CFunction.Fifo
