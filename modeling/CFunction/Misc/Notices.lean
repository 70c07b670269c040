import CFunction.Misc.Runs
import Mathlib.Data.List.Perm.Basic

/-!
# Notices that collapse

Items arrive at a store, and a notice tells a consumer of it. Notices do not queue: a pending one
stands for all, and before the consumer listens there are none. A notice starts the consumer, which
goes on taking until it finds nothing. `Takes w xs r` says that `xs` may be taken from `w` and `r`
stays, and `looks` that the consumer is notified of what is there when it begins to listen.
-/

namespace CFunction.Notices

structure State (α : Type*) where
  waiting : List α
  listening : Bool
  pending : Bool
  taking : Bool

def State.init {α : Type*} : State α := ⟨[], false, false, false⟩

inductive Event (α : Type*) where
  | arrive (xs : List α)
  | listen
  | start
  | take (xs : List α)
  | finish

variable {α : Type*} {Takes : List α → List α → List α → Prop} {looks : Bool}
  {es before after : List (Event α)} {s : State α} {e : Event α}

inductive Step (Takes : List α → List α → List α → Prop) (looks : Bool) :
    State α → Event α → State α → Prop
  | arrive {s : State α} {xs : List α} (hxs : xs ≠ []) : Step Takes looks s (.arrive xs)
      { s with waiting := s.waiting ++ xs, pending := s.listening }
  | listen {s : State α} (h : s.listening = false) : Step Takes looks s .listen
      { s with listening := true, pending := looks && ! s.waiting.isEmpty }
  | start {s : State α} (h : s.pending = true) (hidle : s.taking = false) :
      Step Takes looks s .start
      { s with pending := false, taking := true }
  | take {s : State α} {xs r : List α} (h : s.taking = true) (htakes : Takes s.waiting xs r) :
      Step Takes looks s (.take xs) { s with waiting := r }
  | finish {s : State α} (h : s.taking = true) (hnone : s.waiting = []) : Step Takes looks s .finish
      { s with taking := false }

/-! ### Histories -/

@[simp] def Event.arrivals : Event α → List α
  | .arrive xs => xs
  | _ => []

@[simp] def Event.takes : Event α → List α
  | .take xs => xs
  | _ => []

def arrived (es : List (Event α)) : List α := es.flatMap Event.arrivals

def taken (es : List (Event α)) : List α := es.flatMap Event.takes

theorem arrived_concat (es : List (Event α)) (e : Event α) :
    arrived (es ++ [e]) = arrived es ++ e.arrivals := by
  rw [arrived, List.flatMap_append, List.flatMap_singleton, arrived]

theorem taken_concat (es : List (Event α)) (e : Event α) :
    taken (es ++ [e]) = taken es ++ e.takes := by
  rw [taken, List.flatMap_append, List.flatMap_singleton, taken]

/-- What has arrived is taken or waits. -/
theorem arrived_perm (hperm : ∀ w xs r, Takes w xs r → w.Perm (xs ++ r))
    (run : Run (Step Takes looks) .init es s) : (arrived es).Perm (taken es ++ s.waiting) := by
  induction run with
  | nil => exact List.Perm.refl _
  | @snoc es s t e _ hstep ih =>
    rw [arrived_concat, taken_concat]
    cases hstep with
    | arrive hxs =>
      simp only [Event.arrivals, Event.takes, List.append_nil]
      rw [← List.append_assoc]
      exact ih.append_right _
    | take h htakes =>
      simp only [Event.arrivals, Event.takes, List.append_nil]
      rw [List.append_assoc]
      exact ih.trans ((hperm _ _ _ htakes).append_left _)
    | _ =>
      simp only [Event.arrivals, Event.takes, List.append_nil]
      exact ih

/-! ### Nothing is overlooked -/

/-- Nobody is told of what has arrived `before` and `after` the beginning of listening. -/
def Unheard (looks : Bool) (before after : List (Event α)) : Prop :=
  arrived after = [] ∧ (looks = true → arrived before = [])

/-- What is known of the items, before listening and after. -/
structure Silent (es : List (Event α)) (s : State α) : Prop where
  pending : s.pending = false
  taking : s.taking = false
  taken : taken es = []
  waiting : s.waiting = arrived es

structure Told (looks : Bool) (before after : List (Event α)) (s : State α) : Prop where
  unheard : Unheard looks before after → Silent (before ++ .listen :: after) s
  heard : ¬ Unheard looks before after → s.waiting ≠ [] → s.pending = true ∨ s.taking = true

def Known (looks : Bool) (es : List (Event α)) (s : State α) : Prop :=
  (s.listening = false ∧ Silent es s) ∨
    (s.listening = true ∧ ∃ before after, es = before ++ .listen :: after ∧
      Told looks before after s)

theorem told_listen (hs : Silent before s) :
    Told looks before [] { s with listening := true, pending := looks && ! s.waiting.isEmpty } := by
  have hnone : taken (before ++ [Event.listen]) = [] := by
    rw [taken_concat, hs.taken]
    rfl
  have hwaiting : s.waiting = arrived (before ++ [.listen]) := by
    rw [arrived_concat, hs.waiting]
    exact (List.append_nil _).symm
  refine ⟨fun hu => ⟨?_, hs.taking, hnone, hwaiting⟩, fun hu hne => .inl ?_⟩
  · cases looks with
    | false => rfl
    | true =>
      show (true && ! s.waiting.isEmpty) = false
      rw [hs.waiting, hu.2 rfl]
      rfl
  · cases looks with
    | false => exact absurd ⟨rfl, fun h => absurd h Bool.false_ne_true⟩ hu
    | true =>
      show (true && ! s.waiting.isEmpty) = true
      rw [Bool.true_and, Bool.not_eq_true', List.isEmpty_eq_false_iff]
      exact hne

/-- One step while the consumer listens. -/
theorem Told.step (h : Told looks before after s) (hl : s.listening = true) {t : State α}
    (hstep : Step Takes looks s e t) : t.listening = true ∧ Told looks before (after ++ [e]) t := by
  have hmono : Unheard looks before (after ++ [e]) → Unheard looks before after := by
    rintro ⟨hafter, hbefore⟩
    rw [arrived_concat, List.append_eq_nil_iff] at hafter
    exact ⟨hafter.1, hbefore⟩
  cases hstep with
  | arrive hxs =>
    refine ⟨hl, fun hu => ?_, fun _ _ => .inl hl⟩
    have := hu.1
    rw [arrived_concat, List.append_eq_nil_iff] at this
    exact absurd this.2 hxs
  | listen hno =>
    rw [hl] at hno
    cases hno
  | start hp hidle =>
    refine ⟨hl, fun hu => ?_, fun _ _ => .inr rfl⟩
    rw [(h.unheard (hmono hu)).pending] at hp
    cases hp
  | take ht htakes =>
    refine ⟨hl, fun hu => ?_, fun _ _ => .inr ht⟩
    rw [(h.unheard (hmono hu)).taking] at ht
    cases ht
  | finish ht hnone =>
    refine ⟨hl, fun hu => ?_, fun _ hne => absurd hnone hne⟩
    rw [(h.unheard (hmono hu)).taking] at ht
    cases ht

theorem known (run : Run (Step Takes looks) .init es s) : Known looks es s := by
  induction run with
  | nil => exact .inl ⟨rfl, rfl, rfl, rfl, rfl⟩
  | @snoc es s t e _ hstep ih =>
    rcases ih with ⟨hl, hs⟩ | ⟨hl, before, after, rfl, htold⟩
    · cases hstep with
      | arrive hxs =>
        refine .inl ⟨hl, hl, hs.taking, ?_, ?_⟩
        · rw [taken_concat, hs.taken]
          rfl
        · rw [arrived_concat, ← hs.waiting]
          rfl
      | listen => exact .inr ⟨rfl, es, [], rfl, told_listen hs⟩
      | start hp =>
        rw [hs.pending] at hp
        cases hp
      | take ht =>
        rw [hs.taking] at ht
        cases ht
      | finish ht =>
        rw [hs.taking] at ht
        cases ht
    · obtain ⟨ht, htold⟩ := htold.step hl hstep
      refine .inr ⟨ht, before, after ++ [e], ?_, htold⟩
      rw [List.append_assoc, List.cons_append]

/-- An idle consumer with no notice of what waits has nothing waiting, except where nobody was ever
told. -/
theorem at_rest (run : Run (Step Takes looks) .init es s) (hl : s.listening = true)
    (hp : s.waiting ≠ [] → s.pending = false) (ht : s.taking = false) :
    ∃ before after, es = before ++ .listen :: after ∧
      (¬ Unheard looks before after → s.waiting = []) ∧
      (Unheard looks before after → taken es = [] ∧ s.waiting = arrived es) := by
  rcases known run with ⟨hno, -⟩ | ⟨-, before, after, rfl, htold⟩
  · rw [hl] at hno
    cases hno
  · refine ⟨before, after, rfl, fun hu => ?_, fun hu => ?_⟩
    · by_contra hne
      rcases htold.heard hu hne with h | h
      · rw [hp hne] at h
        cases h
      · rw [ht] at h
        cases h
    · exact ⟨(htold.unheard hu).taken, (htold.unheard hu).waiting⟩

/-- Where the consumer looks first, nothing is overlooked. -/
theorem waiting_eq_nil (run : Run (Step Takes true) .init es s) (hl : s.listening = true)
    (hp : s.waiting ≠ [] → s.pending = false) (ht : s.taking = false) : s.waiting = [] := by
  obtain ⟨before, after, rfl, hheard, hunheard⟩ := at_rest run hl hp ht
  by_cases hu : Unheard true before after
  · have hafter : arrived (Event.listen :: after) = arrived after := rfl
    rw [(hunheard hu).2, arrived, List.flatMap_append]
    change arrived before ++ arrived (.listen :: after) = []
    rw [hafter, hu.1, hu.2 rfl]
    rfl
  · exact hheard hu

end CFunction.Notices
