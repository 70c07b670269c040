import Mathlib.Data.List.Sort

/-!
# Merge sort with a strict order

A merge that takes the first list's head only when it is smaller sorts as well, although equal
elements change places. The order need only be one on the elements of the list.
-/

namespace CFunction
namespace StrictMerge

variable {α : Type*} {lt : α → α → Bool} {P : α → Prop} {xs ys : List α}

/-- No later element is smaller. -/
def Sorted (lt : α → α → Bool) (xs : List α) : Prop := xs.Pairwise fun a b => lt b a = false

/-- The elements with `P` are ordered strictly by `lt`, equal ones left aside. -/
structure StrictOn (lt : α → α → Bool) (P : α → Prop) : Prop where
  asymm : ∀ a b, P a → P b → lt a b = true → lt b a = false
  trans : ∀ a b c, P a → P b → P c → lt b a = false → lt c b = false → lt c a = false

theorem sorted_merge (hlt : StrictOn lt P) (hP : ∀ a ∈ xs, P a) (hP' : ∀ a ∈ ys, P a)
    (hxs : Sorted lt xs) (hys : Sorted lt ys) : Sorted lt (xs.merge ys lt) := by
  induction xs generalizing ys with
  | nil =>
    rw [List.nil_merge]
    exact hys
  | cons x xs ihxs =>
    obtain ⟨hx, hxs'⟩ := List.pairwise_cons.1 hxs
    have hPx := hP x List.mem_cons_self
    have hPxs : ∀ a ∈ xs, P a := fun a ha => hP a (List.mem_cons_of_mem x ha)
    induction ys with
    | nil =>
      rw [List.merge_right]
      exact hxs
    | cons y ys ihys =>
      obtain ⟨hy, hys'⟩ := List.pairwise_cons.1 hys
      have hPy := hP' y List.mem_cons_self
      have hPys : ∀ a ∈ ys, P a := fun a ha => hP' a (List.mem_cons_of_mem y ha)
      rw [List.cons_merge_cons]
      by_cases hxy : lt x y = true
      · rw [if_pos hxy]
        refine List.pairwise_cons.2 ⟨fun z hz => ?_, ihxs hPxs hP' hxs' hys⟩
        have hyx := hlt.asymm x y hPx hPy hxy
        rcases List.mem_merge.1 hz with hz | hz
        · exact hx z hz
        rcases List.mem_cons.1 hz with rfl | hz'
        · exact hyx
        · exact hlt.trans x y z hPx hPy (hPys z hz') hyx (hy z hz')
      · rw [if_neg hxy]
        rw [Bool.not_eq_true] at hxy
        refine List.pairwise_cons.2 ⟨fun z hz => ?_, ihys hPys hys'⟩
        rcases List.mem_merge.1 hz with hz | hz
        · rcases List.mem_cons.1 hz with rfl | hz'
          · exact hxy
          · exact hlt.trans y x z hPy hPx (hPxs z hz') hxy (hx z hz')
        · exact hy z hz

/-- The halves of a merge sort. -/
theorem mergeSort_split (lt : α → α → Bool) (h : 2 ≤ xs.length) :
    xs.mergeSort lt = ((xs.take ((xs.length + 1) / 2)).mergeSort lt).merge
      ((xs.drop ((xs.length + 1) / 2)).mergeSort lt) lt := by
  match xs, h with
  | x :: y :: xs, _ =>
    rw [List.mergeSort, List.MergeSort.Internal.splitInTwo_fst,
      List.MergeSort.Internal.splitInTwo_snd]

theorem sorted_mergeSort (hlt : StrictOn lt P) (hP : ∀ a ∈ xs, P a) :
    Sorted lt (xs.mergeSort lt) := by
  induction hn : xs.length using Nat.strongRecOn generalizing xs with
  | ind n ih =>
    match xs with
    | [] =>
      rw [List.mergeSort_nil]
      exact List.Pairwise.nil
    | [x] =>
      rw [List.mergeSort_singleton]
      exact List.pairwise_singleton _ x
    | x :: y :: rest =>
      have hlen : 2 ≤ (x :: y :: rest).length := Nat.le_add_left 2 rest.length
      rw [mergeSort_split lt hlen]
      generalize x :: y :: rest = xs at *
      have hP₁ : ∀ a ∈ xs.take ((xs.length + 1) / 2), P a :=
        fun a ha => hP a (List.mem_of_mem_take ha)
      have hP₂ : ∀ a ∈ xs.drop ((xs.length + 1) / 2), P a :=
        fun a ha => hP a (List.mem_of_mem_drop ha)
      apply sorted_merge hlt
      · exact fun a ha => hP₁ a (List.mem_mergeSort.1 ha)
      · exact fun a ha => hP₂ a (List.mem_mergeSort.1 ha)
      · refine ih _ ?_ hP₁ rfl
        rw [List.length_take]
        omega
      · refine ih _ ?_ hP₂ rfl
        rw [List.length_drop]
        omega

end StrictMerge
end CFunction
