import Mathlib.Logic.Function.Basic

/-!
# Heaps of typed blocks

Addresses are natural numbers and `0` is `NULL`, which is never allocated. Which address
`malloc` hands out is not the program's choice: the caller supplies it, and an address that is
`NULL` or in use is refused. Reading, writing and freeing an address that is not allocated has
no result.
-/

namespace CFunction

/-- An address; `0` is `NULL`. -/
abbrev Ptr := Nat

/-- The allocated blocks. `NULL` never holds one. -/
structure Heap (α : Type*) where
  block : Ptr → Option α
  null : block 0 = none

namespace Heap

variable {α : Type*}

/-- `p` can be handed out by the next `malloc`. -/
def Fresh (h : Heap α) (p : Ptr) : Prop := p ≠ 0 ∧ h.block p = none

instance (h : Heap α) (p : Ptr) : Decidable (h.Fresh p) :=
  decidable_of_iff (p ≠ 0 ∧ (h.block p).isNone) (by simp [Fresh])

/-- `p` is allocated. -/
def Live (h : Heap α) (p : Ptr) : Prop := (h.block p).isSome

def empty : Heap α := ⟨fun _ => none, rfl⟩

/-- Put `a` at the non-`NULL` address `p`. -/
def put (h : Heap α) (p : Ptr) (a : α) (hp : p ≠ 0) : Heap α :=
  ⟨Function.update h.block p (some a), by rw [Function.update_of_ne hp.symm]; exact h.null⟩

/-- `malloc` returning `p`, with `a` stored in the new block. -/
def malloc (h : Heap α) (p : Ptr) (a : α) : Option (Heap α) :=
  if hf : h.Fresh p then some (h.put p a hf.1) else none

/-- The block at `p`. -/
def load (h : Heap α) (p : Ptr) : Option α := h.block p

/-- Change the block at `p`, if there is one. -/
def adjust (h : Heap α) (p : Ptr) (f : α → α) : Heap α :=
  ⟨Function.update h.block p ((h.block p).map f), by
    by_cases hp : p = 0
    · subst hp; simp [h.null]
    · rw [Function.update_of_ne (Ne.symm hp)]; exact h.null⟩

/-- A write to the block at `p`. -/
def modify (h : Heap α) (p : Ptr) (f : α → α) : Option (Heap α) :=
  if (h.block p).isSome then some (h.adjust p f) else none

/-- The heap without the block at `p`. -/
def erase (h : Heap α) (p : Ptr) : Heap α :=
  ⟨Function.update h.block p none, by
    by_cases hp : p = 0
    · subst hp; simp
    · rw [Function.update_of_ne (Ne.symm hp)]; exact h.null⟩

/-- `free(p)` of an allocated block. -/
def free (h : Heap α) (p : Ptr) : Option (Heap α) :=
  if (h.block p).isSome then some (h.erase p) else none

@[ext] theorem ext {h h' : Heap α} (same : ∀ p, h.block p = h'.block p) : h = h' := by
  obtain ⟨b, _⟩ := h
  obtain ⟨b', _⟩ := h'
  obtain rfl : b = b' := funext same
  rfl

variable {h h' : Heap α} {p r : Ptr} {a : α} {f : α → α}

theorem Live.ne_null (live : h.Live p) : p ≠ 0 := by
  rintro rfl
  simp [Live, h.null] at live

theorem Live.ne_fresh (live : h.Live p) (fresh : h.Fresh r) : p ≠ r := by
  rintro rfl
  simp [Live, fresh.2] at live

theorem malloc_eq (fresh : h.Fresh p) : h.malloc p a = some (h.put p a fresh.1) := by
  simp [malloc, fresh]

theorem modify_eq (live : h.Live p) : h.modify p f = some (h.adjust p f) := if_pos live

theorem free_eq (live : h.Live p) : h.free p = some (h.erase p) := if_pos live

@[simp] theorem put_block (hp : p ≠ 0) :
    (h.put p a hp).block r = if r = p then some a else h.block r := by
  simp [put, Function.update_apply]

@[simp] theorem adjust_block :
    (h.adjust p f).block r = if r = p then (h.block p).map f else h.block r := by
  simp [adjust, Function.update_apply]

@[simp] theorem erase_block : (h.erase p).block r = if r = p then none else h.block r := by
  simp [erase, Function.update_apply]

@[simp] theorem put_live (hp : p ≠ 0) : (h.put p a hp).Live r ↔ r = p ∨ h.Live r := by
  by_cases hr : r = p <;> simp [Live, hr]

@[simp] theorem adjust_live : (h.adjust p f).Live r ↔ h.Live r := by
  by_cases hr : r = p <;> simp [Live, hr]

@[simp] theorem erase_live : (h.erase p).Live r ↔ r ≠ p ∧ h.Live r := by
  by_cases hr : r = p <;> simp [Live, hr]

/-- A block that is freed right after its allocation leaves no trace. -/
theorem erase_put (fresh : h.Fresh p) : (h.put p a fresh.1).erase p = h := by
  ext r : 1
  by_cases hr : r = p
  · subst hr; simp [fresh.2]
  · simp [hr]

end Heap

end CFunction
