import Mathlib.Data.List.Basic
import Mathlib.Data.List.Nodup

/-!
# Tables with one entry per key

An association list in which `put` overwrites the entry of a key where it stands, or appends one.
-/

namespace CFunction
namespace Table

variable {κ ν : Type*} [DecidableEq κ]

/-- Every entry of `k` gets the value `v`. -/
def assign (t : List (κ × ν)) (k : κ) (v : ν) : List (κ × ν) :=
  t.map fun e => if e.1 = k then (e.1, v) else e

def put (t : List (κ × ν)) (k : κ) (v : ν) : List (κ × ν) :=
  if k ∈ t.map Prod.fst then assign t k v else t ++ [(k, v)]

/-- The value of the first entry of `k`. -/
def get (t : List (κ × ν)) (k : κ) : Option ν :=
  match t with
  | [] => none
  | e :: t => if e.1 = k then some e.2 else get t k

@[simp] theorem assign_cons (e : κ × ν) (t : List (κ × ν)) (k : κ) (v : ν) :
    assign (e :: t) k v = (if e.1 = k then (e.1, v) else e) :: assign t k v := rfl

@[simp] theorem keys_assign (t : List (κ × ν)) (k : κ) (v : ν) :
    (assign t k v).map Prod.fst = t.map Prod.fst := by
  induction t with
  | nil => rfl
  | cons e t ih =>
    rw [assign_cons, List.map_cons, List.map_cons, ih]
    split <;> rfl

theorem assign_of_notMem {t : List (κ × ν)} {k : κ} (h : k ∉ t.map Prod.fst) (v : ν) :
    assign t k v = t := by
  induction t with
  | nil => rfl
  | cons e t ih =>
    rw [List.map_cons, List.mem_cons, not_or] at h
    rw [assign_cons, if_neg (Ne.symm h.1), ih h.2]

theorem assign_assign (t : List (κ × ν)) (k : κ) (v : ν) :
    assign (assign t k v) k v = assign t k v := by
  induction t with
  | nil => rfl
  | cons e t ih =>
    rw [assign_cons, assign_cons, ih]
    by_cases he : e.1 = k <;> simp [he]

theorem assign_append (s t : List (κ × ν)) (k : κ) (v : ν) :
    assign (s ++ t) k v = assign s k v ++ assign t k v := List.map_append

theorem mem_keys_put (t : List (κ × ν)) (k : κ) (v : ν) : k ∈ (put t k v).map Prod.fst := by
  unfold put
  split
  · rwa [keys_assign]
  · simp

theorem keys_put_nodup {t : List (κ × ν)} (h : (t.map Prod.fst).Nodup) (k : κ) (v : ν) :
    ((put t k v).map Prod.fst).Nodup := by
  unfold put
  split
  · rwa [keys_assign]
  · rename_i hk
    rw [List.map_append, List.map_singleton]
    exact h.append (List.nodup_singleton k) (by simpa using hk)

theorem forall_mem_put {P : κ → ν → Prop} {t : List (κ × ν)} (h : ∀ e ∈ t, P e.1 e.2) {k : κ}
    {v : ν} (hkv : P k v) : ∀ e ∈ put t k v, P e.1 e.2 := by
  intro e he
  unfold put at he
  split at he
  · obtain ⟨e', he', rfl⟩ := List.mem_map.1 he
    split
    · rename_i hk
      rw [hk]
      exact hkv
    · exact h e' he'
  · rcases List.mem_append.1 he with he | he
    · exact h e he
    · rw [List.mem_singleton.1 he]
      exact hkv

/-- A second `put` of the same value changes nothing. -/
theorem put_put (t : List (κ × ν)) (k : κ) (v : ν) : put (put t k v) k v = put t k v := by
  conv_lhs => rw [put, if_pos (mem_keys_put t k v)]
  unfold put
  split
  · exact assign_assign t k v
  · rename_i hk
    rw [assign_append, assign_of_notMem hk]
    simp [assign]

theorem get_append (s t : List (κ × ν)) (k : κ) : get (s ++ t) k = (get s k).or (get t k) := by
  induction s with
  | nil => rfl
  | cons e s ih =>
    rw [List.cons_append, get, get, ih]
    split <;> rfl

theorem get_of_notMem {t : List (κ × ν)} {k : κ} (h : k ∉ t.map Prod.fst) : get t k = none := by
  induction t with
  | nil => rfl
  | cons e t ih =>
    rw [List.map_cons, List.mem_cons, not_or] at h
    rw [get, if_neg (Ne.symm h.1), ih h.2]

theorem mem_of_get {t : List (κ × ν)} {k : κ} {v : ν} (h : get t k = some v) : (k, v) ∈ t := by
  induction t with
  | nil => cases h
  | cons e t ih =>
    rw [get] at h
    split at h
    · rename_i he
      injection h with hv
      exact List.mem_cons.2 (Or.inl (Prod.ext he.symm hv.symm))
    · exact List.mem_cons_of_mem e (ih h)

theorem get_assign_self {t : List (κ × ν)} {k : κ} (h : k ∈ t.map Prod.fst) (v : ν) :
    get (assign t k v) k = some v := by
  induction t with
  | nil => cases h
  | cons e t ih =>
    rw [assign_cons]
    by_cases he : e.1 = k
    · rw [if_pos he, get, if_pos he]
    · rw [if_neg he, get, if_neg he]
      rw [List.map_cons, List.mem_cons] at h
      exact ih (h.resolve_left (Ne.symm he))

theorem get_assign_of_ne {k k' : κ} (h : k' ≠ k) (t : List (κ × ν)) (v : ν) :
    get (assign t k v) k' = get t k' := by
  induction t with
  | nil => rfl
  | cons e t ih =>
    rw [assign_cons]
    by_cases he : e.1 = k
    · have hne : e.1 ≠ k' := fun he' => h (he'.symm.trans he)
      rw [if_pos he, get, get, if_neg hne, if_neg hne, ih]
    · rw [if_neg he, get, get, ih]

theorem get_put_self (t : List (κ × ν)) (k : κ) (v : ν) : get (put t k v) k = some v := by
  unfold put
  split
  · rename_i hk
    exact get_assign_self hk v
  · rename_i hk
    rw [get_append, get_of_notMem hk, Option.none_or, get, if_pos rfl]

theorem get_put_of_ne {k k' : κ} (h : k' ≠ k) (t : List (κ × ν)) (v : ν) :
    get (put t k v) k' = get t k' := by
  unfold put
  split
  · exact get_assign_of_ne h t v
  · rw [get_append, get, if_neg (Ne.symm h), get, Option.or_none]

end Table
end CFunction
