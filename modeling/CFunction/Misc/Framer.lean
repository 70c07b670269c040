import Mathlib.Data.List.Basic
import Mathlib.Data.List.Infix

/-!
# Framing a stream by a start and a stop symbol

A frame begins with `start` and ends in front of the next `stop`; what stands between frames is
skipped. The framer reads one symbol at a time and keeps the frame that is open, `[]` when it is
hunting for the next `start`.
-/

namespace CFunction
namespace Framer

variable {α : Type*} [DecidableEq α] (start stop : α)

/-- One symbol: the open frame after it, and the frame that it closes. -/
def step (cur : List α) (b : α) : List α × List (List α) :=
  if cur = [] then (if b = start then [start] else [], [])
  else if b = stop then ([], [cur])
  else (cur ++ [b], [])

/-- All symbols of `s`, from the open frame `cur`. -/
def feed (cur : List α) : List α → List α × List (List α)
  | [] => (cur, [])
  | b :: s =>
    let r := step start stop cur b
    let t := feed r.1 s
    (t.1, r.2 ++ t.2)

/-- A frame is open behind `s`: a `start`, and no `stop` since. -/
def Open (s : List α) : Prop := ∃ p q, s = p ++ start :: q ∧ stop ∉ q

variable {start stop}

theorem feed_append_fst (cur a b : List α) :
    (feed start stop cur (a ++ b)).1 = (feed start stop (feed start stop cur a).1 b).1 := by
  induction a generalizing cur with
  | nil => rfl
  | cons x a ih => exact ih _

theorem feed_append_snd (cur a b : List α) :
    (feed start stop cur (a ++ b)).2 =
      (feed start stop cur a).2 ++ (feed start stop (feed start stop cur a).1 b).2 := by
  induction a generalizing cur with
  | nil => rfl
  | cons x a ih => simp [feed, ih]

/-- Without a `start` the framer goes on hunting. -/
theorem feed_hunt {s : List α} (h : start ∉ s) : feed start stop [] s = ([], []) := by
  induction s with
  | nil => rfl
  | cons b s ih =>
    rw [List.mem_cons, not_or] at h
    simp [feed, step, Ne.symm h.1, ih h.2]

/-- Without a `stop` an open frame grows. -/
theorem feed_grow {cur s : List α} (hcur : cur ≠ []) (h : stop ∉ s) :
    feed start stop cur s = (cur ++ s, []) := by
  induction s generalizing cur with
  | nil => simp [feed]
  | cons b s ih =>
    rw [List.mem_cons, not_or] at h
    have hstep : step start stop cur b = (cur ++ [b], []) := by
      simp [step, hcur, Ne.symm h.1]
    have hrest := @ih (cur ++ [b]) (by simp) h.2
    simp [feed, hstep, hrest]

theorem feed_start (s : List α) : feed start stop [] (start :: s) = feed start stop [start] s := by
  simp [feed, step]

theorem feed_stop {cur : List α} (hcur : cur ≠ []) (s : List α) :
    feed start stop cur (stop :: s) =
      ((feed start stop [] s).1, cur :: (feed start stop [] s).2) := by
  simp [feed, step, hcur]

theorem feed_skip {b : α} (hb : b ≠ start) (s : List α) :
    feed start stop [] (b :: s) = feed start stop [] s := by
  simp [feed, step, hb]

/-- Only a `stop` closes a frame. -/
theorem feed_no_stop {s : List α} (h : stop ∉ s) (cur : List α) :
    (feed start stop cur s).2 = [] := by
  induction s generalizing cur with
  | nil => rfl
  | cons b s ih =>
    rw [List.mem_cons, not_or] at h
    have hstep : (step start stop cur b).2 = [] := by
      unfold step
      split
      · rfl
      · rw [if_neg (Ne.symm h.1)]
    simp [feed, hstep, ih h.2]

/-- A whole frame with its `stop`. -/
theorem feed_frame {s : List α} (h : stop ∉ s) (rest : List α) :
    feed start stop [] (start :: s ++ stop :: rest) =
      ((feed start stop [] rest).1, (start :: s) :: (feed start stop [] rest).2) := by
  have hgrow := @feed_grow α _ start stop [start] s (by simp) h
  rw [List.cons_append, feed_start]
  apply Prod.ext
  · rw [feed_append_fst, hgrow, feed_stop (by simp)]
  · rw [feed_append_snd, hgrow, feed_stop (by simp)]
    rfl

/-- Behind a `stop` the framer hunts. -/
theorem feed_stop_fst (hne : start ≠ stop) (cur s : List α) :
    (feed start stop cur (stop :: s)).1 = (feed start stop [] s).1 := by
  by_cases hcur : cur = []
  · rw [hcur, feed_skip (Ne.symm hne)]
  · rw [feed_stop hcur]

/-- Every frame begins with `start`. -/
theorem head_of_mem_feed {cur s x : List α} (hcur : cur = [] ∨ cur.head? = some start)
    (hx : x ∈ (feed start stop cur s).2) : x.head? = some start := by
  induction s generalizing cur with
  | nil => cases hx
  | cons b s ih =>
    simp only [feed, List.mem_append] at hx
    rcases hx with hx | hx
    · unfold step at hx
      split at hx
      · cases hx
      · split at hx
        · rw [List.mem_singleton.1 hx]
          exact hcur.resolve_left (by assumption)
        · cases hx
    · refine ih ?_ hx
      unfold step
      split
      · split
        · exact Or.inr rfl
        · exact Or.inl rfl
      · split
        · exact Or.inl rfl
        · right
          rw [List.head?_append, hcur.resolve_left (by assumption)]
          rfl

omit [DecidableEq α] in
theorem open_concat (hne : start ≠ stop) (s : List α) (b : α) :
    Open start stop (s ++ [b]) ↔ b = start ∨ (Open start stop s ∧ b ≠ stop) := by
  constructor
  · rintro ⟨p, q, h, hq⟩
    rcases List.eq_nil_or_concat q with rfl | ⟨q, c, rfl⟩
    · left
      exact List.singleton_inj.1 (List.append_inj_right' h rfl)
    · rw [List.concat_eq_append, ← List.cons_append, ← List.append_assoc] at h
      rw [List.concat_eq_append, List.mem_append, not_or] at hq
      have hc := List.singleton_inj.1 (List.append_inj_right' h rfl)
      right
      refine ⟨⟨p, q, List.append_inj_left' h rfl, hq.1⟩, ?_⟩
      intro hb
      exact hq.2 (by rw [← hc, hb]; exact List.mem_singleton_self stop)
  · rintro (rfl | ⟨⟨p, q, rfl, hq⟩, hb⟩)
    · exact ⟨s, [], rfl, by simp⟩
    · refine ⟨p, q ++ [b], by simp, ?_⟩
      rw [List.mem_append, List.mem_singleton]
      exact not_or.2 ⟨hq, Ne.symm hb⟩

/-- `Open` describes the framer's state. -/
theorem feed_ne_nil_iff (hne : start ≠ stop) (s : List α) :
    (feed start stop [] s).1 ≠ [] ↔ Open start stop s := by
  induction s using List.reverseRecOn with
  | nil => simp [feed, Open]
  | append_singleton s b ih =>
    rw [feed_append_fst, open_concat hne, ← ih]
    by_cases hcur : (feed start stop [] s).1 = []
    · by_cases hb : b = start <;> simp [feed, step, hcur, hb]
    · by_cases hb : b = stop
      · simp [feed, step, hcur, hb, hne.symm]
      · simp [feed, step, hcur, hb]

theorem open_append_stop (hne : start ≠ stop) (p s : List α) :
    Open start stop (p ++ stop :: s) ↔ Open start stop s := by
  rw [← feed_ne_nil_iff hne, ← feed_ne_nil_iff hne, feed_append_fst, feed_stop_fst hne]

theorem open_cons_of_ne (hne : start ≠ stop) {b : α} (hb : b ≠ start) (s : List α) :
    Open start stop (b :: s) ↔ Open start stop s := by
  rw [← feed_ne_nil_iff hne, ← feed_ne_nil_iff hne, feed_skip hb]

omit [DecidableEq α] in
theorem not_open_nil : ¬ Open start stop ([] : List α) := by
  rintro ⟨p, q, h, -⟩
  simp at h

end Framer
end CFunction
