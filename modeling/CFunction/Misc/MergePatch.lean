import Mathlib.Logic.Function.Basic

/-!
# Merging patches

A document is a value, `null` or an object, and an object has a document for every key, which is
absent for all but the keys of its members. A patch is a document itself: an absent member leaves
the member of the target alone, `null` removes it, and an object goes into it. Two documents are
alike when they differ in values only that a given relation relates.
-/

namespace CFunction
namespace MergePatch

variable {κ α : Type*}

inductive Doc (κ α : Type*) where
  | absent
  | null
  | value (a : α)
  | object (members : κ → Doc κ α)

namespace Doc

variable {R : α → α → Prop} {m n p : κ → Doc κ α} {d t : Doc κ α}

/-- What stands under a key. -/
def member : Doc κ α → κ → Doc κ α
  | .object m => m
  | _ => fun _ => .absent

@[simp] theorem member_object (k : κ) : (object m).member k = m k := rfl

@[simp] theorem member_absent (k : κ) : (absent : Doc κ α).member k = absent := rfl

/-- A patch at the place of a member. -/
def apply (t : Doc κ α) : Doc κ α → Doc κ α
  | .absent => t
  | .null => .absent
  | .value a => .value a
  | .object p => .object fun k => apply (t.member k) (p k)

@[simp] theorem apply_absent (t : Doc κ α) : t.apply absent = t := rfl

@[simp] theorem apply_null (t : Doc κ α) : t.apply null = absent := rfl

@[simp] theorem apply_value (t : Doc κ α) (a : α) : t.apply (value a) = value a := rfl

@[simp] theorem apply_object (t : Doc κ α) (p : κ → Doc κ α) :
    t.apply (object p) = object fun k => (t.member k).apply (p k) := rfl

/-- Only a value at the place of a member is `null`, and the patch of a whole document may be it. -/
def merge (t : Doc κ α) : Doc κ α → Doc κ α
  | .null => .null
  | p => t.apply p

theorem merge_of_ne_null (h : d ≠ null) : merge t d = t.apply d := by
  cases d with
  | null => exact absurd rfl h
  | _ => rfl

/-- A patch leaves nothing to do for a second time. -/
theorem apply_apply (t p : Doc κ α) : (t.apply p).apply p = t.apply p := by
  induction p generalizing t with
  | absent => rfl
  | null => rfl
  | value a => rfl
  | object p ih =>
    rw [apply_object, apply_object]
    exact congrArg object (funext fun k => ih k (t.member k))

theorem merge_merge (t p : Doc κ α) : (t.merge p).merge p = t.merge p := by
  cases p with
  | null => rfl
  | absent => rfl
  | value a => rfl
  | object p => exact apply_apply t (object p)

/-! ### Documents without `null` -/

def NullFree : Doc κ α → Prop
  | .null => False
  | .object m => ∀ k, NullFree (m k)
  | _ => True

theorem absent_apply (h : NullFree d) : absent.apply d = d := by
  induction d with
  | absent => rfl
  | null => exact h.elim
  | value a => rfl
  | object m ih => exact congrArg object (funext fun k => ih k (h k))

/-- Into what is no object a document without `null` goes as it is. -/
theorem apply_of_no_members (ht : ∀ k, t.member k = absent) (hd : NullFree d) (hne : d ≠ absent) :
    t.apply d = d := by
  cases d with
  | absent => exact absurd rfl hne
  | null => exact hd.elim
  | value a => rfl
  | object m =>
    refine congrArg object (funext fun k => ?_)
    rw [ht k]
    exact absent_apply (hd k)

/-! ### Alike documents -/

inductive Alike (R : α → α → Prop) : Doc κ α → Doc κ α → Prop
  | refl (d : Doc κ α) : Alike R d d
  | value {a b : α} : R a b → Alike R (.value a) (.value b)
  | object {m n : κ → Doc κ α} : (∀ k, Alike R (m k) (n k)) → Alike R (.object m) (.object n)

theorem Alike.of_eq (h : d = t) : Alike R d t := h ▸ Alike.refl d

/-- A patch for an object, member by member. -/
theorem Alike.apply_object (h : ∀ k, Alike R ((m k).apply (p k)) (n k)) :
    Alike R ((Doc.object m).apply (Doc.object p)) (Doc.object n) :=
  Alike.object h

end Doc
end MergePatch
end CFunction
