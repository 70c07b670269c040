import CFunction.Misc.Runs
import Mathlib.Data.List.Induction

/-!
# Transfers in parts

A block that is sent, or a buffer that is filled, by calls that each move as much as they like of
what they are offered, or fail. A history of calls is a list, the oldest first.
-/

namespace CFunction.Transfer

variable {α : Type*}

/-! ### Sending -/

/-- A call that is offered `data`, and how much it takes; `none` when it fails. -/
structure Offer (α : Type*) where
  data : List α
  taken : Option Nat
  deriving DecidableEq

def Offer.accepted (o : Offer α) : List α := o.data.take (o.taken.getD 0)

/-- What the calls have taken, in order. -/
def accepted (offers : List (Offer α)) : List α := offers.flatMap Offer.accepted

theorem accepted_append (offers offers' : List (Offer α)) :
    accepted (offers ++ offers') = accepted offers ++ accepted offers' :=
  List.flatMap_append

@[simp] theorem accepted_concat (offers : List (Offer α)) (o : Offer α) :
    accepted (offers ++ [o]) = accepted offers ++ o.accepted := by
  rw [accepted_append, accepted, accepted, List.flatMap_singleton]

/-- What is taken is the beginning of the block exactly when every call takes what comes next. -/
theorem accepted_isPrefix_iff {block : List α} {offers : List (Offer α)} :
    accepted offers <+: block ↔
      Throughout (fun past o => o.accepted <+: block.drop (accepted past).length) offers := by
  induction offers using List.reverseRecOn with
  | nil => exact iff_of_true List.nil_prefix throughout_nil
  | append_singleton offers o ih =>
    rw [throughout_concat_iff, ← ih, accepted_concat]
    constructor
    · intro h
      have hpast : accepted offers <+: block := (List.prefix_append _ _).trans h
      obtain ⟨rest, hblock⟩ := hpast
      rw [← hblock, List.prefix_append_right_inj] at h
      rw [← hblock, List.drop_left]
      exact ⟨List.prefix_append _ _, h⟩
    · intro h
      obtain ⟨⟨rest, hblock⟩, ho⟩ := h
      rw [← hblock, List.drop_left] at ho
      rw [← hblock, List.prefix_append_right_inj]
      exact ho

/-- Every call is offered what comes next. -/
def InOrder (block : List α) (offers : List (Offer α)) : Prop :=
  Throughout (fun past o => o.data <+: block.drop (accepted past).length) offers

/-- What is taken of calls in order is the beginning of the block, without gap or repetition. -/
theorem InOrder.accepted_isPrefix {block : List α} {offers : List (Offer α)}
    (h : InOrder block offers) : accepted offers <+: block := by
  rw [accepted_isPrefix_iff]
  intro past o rest hoffers
  exact (List.take_prefix _ _).trans (h past o rest hoffers)

/-! ### Filling -/

/-- A call that is offered `room` places, and what it delivers; `none` when it fails. -/
structure Fetch (α : Type*) where
  room : Nat
  chunk : Option (List α)
  deriving DecidableEq

/-- What the calls have delivered, in order. -/
def received (fetches : List (Fetch α)) : List α := fetches.flatMap fun f => f.chunk.getD []

@[simp] theorem received_nil : received ([] : List (Fetch α)) = [] := rfl

@[simp] theorem received_concat (fetches : List (Fetch α)) (f : Fetch α) :
    received (fetches ++ [f]) = received fetches ++ f.chunk.getD [] := by
  rw [received, List.flatMap_append, List.flatMap_singleton]
  rfl

/-- No call is offered more room than is left of `n` places. -/
def InRoom (n : Nat) (fetches : List (Fetch α)) : Prop :=
  Throughout (fun past f => f.room + (received past).length ≤ n) fetches

end CFunction.Transfer
