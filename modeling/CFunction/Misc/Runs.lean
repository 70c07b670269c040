import Mathlib.Data.List.Basic
import Mathlib.Order.Basic

/-!
# Runs of labelled steps

A component is a step relation `step s e t` between states, labelled by events.  A label
carries what is observed of the step: who acted, with which arguments and with which result.
`Run step s₀ es s` collects the labels of a finite run in the order in which they happened, so
that histories are ordinary functions of `es`.  The rules below are the induction principle of
a run and the transfer of runs along a forward simulation whose silent steps have no abstract
counterpart.  `Throughout` states a condition on each event in terms of the history before it.
-/

namespace CFunction

variable {σ τ ε δ : Type*}

/-- `Run step s₀ es s`: from `s₀` the labelled steps `es`, oldest first, lead to `s`. -/
inductive Run (step : σ → ε → σ → Prop) (s₀ : σ) : List ε → σ → Prop
  | nil : Run step s₀ [] s₀
  | snoc {es : List ε} {s t : σ} {e : ε} :
      Run step s₀ es s → step s e t → Run step s₀ (es ++ [e]) t

namespace Run

variable {step : σ → ε → σ → Prop} {s₀ s t : σ} {es es' : List ε} {e : ε}

/-- The invariant rule. The invariant may speak about the whole history `es`. -/
theorem invariant {P : List ε → σ → Prop} (init : P [] s₀)
    (preserved : ∀ es s e t, P es s → step s e t → P (es ++ [e]) t)
    (run : Run step s₀ es s) : P es s := by
  induction run with
  | nil => exact init
  | snoc _ hstep ih => exact preserved _ _ _ _ ih hstep

/-- A run of a relation that allows less. -/
theorem mono {step' : σ → ε → σ → Prop} (hstep : ∀ s e t, step s e t → step' s e t)
    (run : Run step s₀ es s) : Run step' s₀ es s := by
  induction run with
  | nil => exact .nil
  | snoc _ h ih => exact ih.snoc (hstep _ _ _ h)

/-- The run up to an event of its history, and the step of that event. -/
theorem step_of_history (run : Run step s₀ es s) :
    ∀ {past e rest}, es = past ++ e :: rest → ∃ t u, Run step s₀ past t ∧ step t e u := by
  induction run with
  | nil =>
    intro past e rest h
    exact absurd h (by simp)
  | @snoc es s t e hrun hstep ih =>
    intro past d rest h
    rcases List.eq_nil_or_concat' rest with rfl | ⟨rest, c, rfl⟩
    · obtain ⟨rfl, rfl⟩ := List.append_singleton_inj.1 h
      exact ⟨s, t, hrun, hstep⟩
    · rw [← List.cons_append, ← List.append_assoc] at h
      exact ih (List.append_singleton_inj.1 h).1

/-- `lab e = none` marks a silent step; every other step is matched by an abstract step. -/
def Simulates (step : σ → ε → σ → Prop) (astep : τ → δ → τ → Prop) (lab : ε → Option δ)
    (R : σ → τ → Prop) : Prop :=
  ∀ s e t a, R s a → step s e t →
    match lab e with
    | none => R t a
    | some d => ∃ b, astep a d b ∧ R t b

/-- A forward simulation carries a whole run to an abstract run with the visible labels. -/
theorem simulate {astep : τ → δ → τ → Prop} {lab : ε → Option δ} {R : σ → τ → Prop} {a₀ : τ}
    (sim : Simulates step astep lab R) (init : R s₀ a₀) (run : Run step s₀ es s) :
    ∃ a, Run astep a₀ (es.filterMap lab) a ∧ R s a := by
  induction run with
  | nil => exact ⟨a₀, .nil, init⟩
  | @snoc es s t e _ hstep ih =>
    obtain ⟨a, arun, hR⟩ := ih
    have hsim := sim s e t a hR hstep
    cases hlab : lab e with
    | none =>
      rw [hlab] at hsim
      exact ⟨a, by simpa [List.filterMap_append, hlab] using arun, hsim⟩
    | some d =>
      rw [hlab] at hsim
      obtain ⟨b, hab, hRb⟩ := hsim
      exact ⟨b, by simpa [List.filterMap_append, hlab] using arun.snoc hab, hRb⟩

/-! ### Conforming to a function

Where the abstract side is a function `spec` from a state and a request to an answer and the
next state, every run of the concrete side gives the answers of `spec`, so two implementations
cannot be told apart. -/

variable {ι ο : Type*} {spec : τ → ι → ο × τ} {req : ε → ι} {ans : ε → ο}

/-- The answers of `spec` to a sequence of requests, and the state after them. -/
def answers (spec : τ → ι → ο × τ) (a : τ) : List ι → List ο × τ
  | [] => ([], a)
  | i :: is =>
    let (o, b) := spec a i
    let (os, c) := answers spec b is
    (o :: os, c)

theorem answers_concat (a : τ) (is : List ι) (i : ι) :
    answers spec a (is ++ [i]) =
      ((answers spec a is).1 ++ [(spec (answers spec a is).2 i).1],
        (spec (answers spec a is).2 i).2) := by
  induction is generalizing a with
  | nil => rfl
  | cons j is ih => simp only [List.cons_append, answers, ih]

/-- Each step answers as `spec` does in the related state. -/
def Conforms (step : σ → ε → σ → Prop) (spec : τ → ι → ο × τ) (req : ε → ι) (ans : ε → ο)
    (R : σ → τ → Prop) : Prop :=
  ∀ s e t a, R s a → step s e t → ans e = (spec a (req e)).1 ∧ R t (spec a (req e)).2

theorem conform {R : σ → τ → Prop} {a₀ : τ} (conf : Conforms step spec req ans R)
    (init : R s₀ a₀) (run : Run step s₀ es s) :
    es.map ans = (answers spec a₀ (es.map req)).1 ∧ R s (answers spec a₀ (es.map req)).2 := by
  induction run with
  | nil => exact ⟨rfl, init⟩
  | @snoc es s t e _ hstep ih =>
    obtain ⟨hans, hR⟩ := ih
    obtain ⟨hlast, hR'⟩ := conf s e t _ hR hstep
    rw [List.map_append, List.map_append, List.map_singleton, List.map_singleton,
      answers_concat, hans, hlast]
    exact ⟨rfl, hR'⟩

/-- A history is its requests and its answers. -/
theorem history_ext (ext : ∀ d e, req d = req e → ans d = ans e → d = e) :
    ∀ {es fs : List ε}, es.map req = fs.map req → es.map ans = fs.map ans → es = fs
  | [], [], _, _ => rfl
  | e :: es, f :: fs, hreq, hans => by
    obtain ⟨hr, hreq⟩ := List.cons.inj hreq
    obtain ⟨ha, hans⟩ := List.cons.inj hans
    rw [ext e f hr ha, history_ext ext hreq hans]

/-! ### Replaying a schedule

Where the actors of a component are deterministic, a run is given by the order in which they
act. -/

/-- Lets the actors `is` act one after the other; no result when one of them cannot. -/
def replay (act : σ → ι → Option (ε × σ)) : List ε → σ → List ι → Option (List ε × σ)
  | es, s, [] => some (es, s)
  | es, s, i :: is => (act s i).bind fun r => replay act (es ++ [r.1]) r.2 is

theorem of_replay {act : σ → ι → Option (ε × σ)}
    (hact : ∀ s i e t, act s i = some (e, t) → step s e t) :
    ∀ {is : List ι} {es : List ε} {s : σ} {fs : List ε} {t : σ},
      Run step s₀ es s → replay act es s is = some (fs, t) → Run step s₀ fs t
  | [], es, s, fs, t, run, h => by
    obtain ⟨rfl, rfl⟩ := Prod.mk.inj (Option.some.inj h)
    exact run
  | i :: is, es, s, fs, t, run, h => by
    rw [replay] at h
    obtain ⟨⟨e, u⟩, hi, hrest⟩ := Option.bind_eq_some_iff.1 h
    exact of_replay hact (run.snoc (hact s i e u hi)) hrest

end Run

/-- At each event of the history `es`, `P` holds of the events before it and of the event. -/
def Throughout (P : List ε → ε → Prop) (es : List ε) : Prop :=
  ∀ past e rest, es = past ++ e :: rest → P past e

section Throughout

variable {P : List ε → ε → Prop}

theorem throughout_nil : Throughout P [] := by
  intro past e rest h
  exact absurd h (by simp)

theorem throughout_concat_iff (es : List ε) (e : ε) :
    Throughout P (es ++ [e]) ↔ Throughout P es ∧ P es e := by
  constructor
  · intro h
    refine ⟨?_, h es e [] rfl⟩
    intro past d rest hes
    exact h past d (rest ++ [e]) (by simp [hes])
  · rintro ⟨hold, hlast⟩ past d rest h
    rcases List.eq_nil_or_concat rest with rfl | ⟨rest, c, rfl⟩
    · obtain ⟨rfl, rfl⟩ := List.append_singleton_inj.1 h
      exact hlast
    · rw [List.concat_eq_append, ← List.cons_append, ← List.append_assoc] at h
      exact hold past d rest (List.append_singleton_inj.1 h).1

end Throughout

end CFunction
