import Mathlib.Data.List.Basic
import Mathlib.Logic.Function.Basic

/-!
# Segments of doubly linked lists

The nodes `ps`, one behind the other: `prev` of the first one is `a`, `next` of the last one is
`b`. Two segments that meet are one segment, and writing a link at an end changes `a` or `b`
only. A list whose ends are `NULL`, or whose first node knows the last one, is a segment with
the right `a` and `b`.
-/

namespace CFunction

variable {α : Type*} {next prev next' prev' : α → α} {a b p x : α} {ps qs : List α}

/-- From `a` through `ps` to `b`. -/
def Segment (next prev : α → α) (a : α) : List α → α → Prop
  | [], _ => True
  | p :: ps, b => prev p = a ∧ next p = ps.headD b ∧ Segment next prev p ps b

namespace Segment

theorem nil : Segment next prev a [] b := trivial

theorem singleton_iff : Segment next prev a [p] b ↔ prev p = a ∧ next p = b :=
  ⟨fun h => ⟨h.1, h.2.1⟩, fun h => ⟨h.1, h.2, trivial⟩⟩

theorem append_iff : Segment next prev a (ps ++ qs) b ↔
    Segment next prev a ps (qs.headD b) ∧ Segment next prev (ps.getLastD a) qs b := by
  induction ps generalizing a with
  | nil => exact ⟨fun h => ⟨trivial, h⟩, fun h => h.2⟩
  | cons p ps ih =>
    have hhead : (ps ++ qs).headD b = ps.headD (qs.headD b) := by
      cases ps with
      | nil => rfl
      | cons q ps => rfl
    have hlast : (p :: ps).getLastD a = ps.getLastD p := by
      cases ps with
      | nil => rfl
      | cons q ps => rfl
    rw [List.cons_append, Segment, Segment, hhead, ih, hlast, and_assoc, and_assoc]

/-- A segment around the node `x`. -/
theorem around_iff : Segment next prev a (ps ++ x :: qs) b ↔
    Segment next prev a ps x ∧ prev x = ps.getLastD a ∧ next x = qs.headD b ∧
      Segment next prev x qs b := by
  rw [append_iff, List.headD_cons, Segment]

/-- Only the links of its own nodes make a segment. -/
theorem congr (h : Segment next prev a ps b) (hnext : ∀ p ∈ ps, next' p = next p)
    (hprev : ∀ p ∈ ps, prev' p = prev p) : Segment next' prev' a ps b := by
  induction ps generalizing a with
  | nil => exact nil
  | cons p ps ih =>
    obtain ⟨hp, hn, hps⟩ := h
    refine ⟨(hprev p List.mem_cons_self).trans hp, (hnext p List.mem_cons_self).trans hn,
      ih hps ?_ ?_⟩
    · exact fun q hq => hnext q (List.mem_cons_of_mem p hq)
    · exact fun q hq => hprev q (List.mem_cons_of_mem p hq)

/-! ### Writing one link -/

variable [DecidableEq α] {v : α}

theorem set_next_of_notMem (h : Segment next prev a ps b) (hx : x ∉ ps) :
    Segment (Function.update next x v) prev a ps b :=
  h.congr (fun _ hp => Function.update_of_ne (ne_of_mem_of_not_mem hp hx) _ _) fun _ _ => rfl

theorem set_prev_of_notMem (h : Segment next prev a ps b) (hx : x ∉ ps) :
    Segment next (Function.update prev x v) a ps b :=
  h.congr (fun _ _ => rfl) fun _ hp => Function.update_of_ne (ne_of_mem_of_not_mem hp hx) _ _

theorem set_next_last (h : Segment next prev a (ps ++ [p]) b) (hp : p ∉ ps) :
    Segment (Function.update next p v) prev a (ps ++ [p]) v := by
  rw [around_iff] at h ⊢
  exact ⟨h.1.set_next_of_notMem hp, h.2.1, Function.update_self .., nil⟩

theorem set_prev_head (h : Segment next prev a (p :: ps) b) (hp : p ∉ ps) :
    Segment next (Function.update prev p v) v (p :: ps) b :=
  ⟨Function.update_self .., h.2.1, h.2.2.set_prev_of_notMem hp⟩

end Segment
end CFunction
