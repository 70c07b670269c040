import Mathlib.Data.List.Basic
import Mathlib.Data.List.TakeWhile

/-!
# Tokens

A list cut at the elements that satisfy a predicate, without the empty pieces. A token that has a
separator behind it is closed; what stands behind the last separator is the rest, which is a token
too unless it is empty.
-/

namespace CFunction.Tokens

variable {α : Type*} {p : α → Bool} {l t g : List α} {c : α}

/-- The tokens with a separator behind them. -/
def closed (p : α → Bool) (l : List α) : List (List α) :=
  (l.splitOnP p).dropLast.filter fun t => !t.isEmpty

/-- What stands behind the last separator. -/
def rest (p : α → Bool) (l : List α) : List α :=
  (l.splitOnP p).getLast (List.splitOnP_ne_nil p l)

/-- The maximal stretches without a separator. -/
def tokens (p : α → Bool) (l : List α) : List (List α) :=
  (l.splitOnP p).filter fun t => !t.isEmpty

theorem tokens_eq (p : α → Bool) (l : List α) :
    tokens p l = closed p l ++ [rest p l].filter fun t => !t.isEmpty := by
  rw [tokens, closed, rest, ← List.filter_append,
    List.dropLast_append_getLast (List.splitOnP_ne_nil p l)]

/-- With nothing behind the last separator all tokens are closed. -/
theorem tokens_of_rest_nil (h : rest p l = []) : tokens p l = closed p l := by
  rw [tokens_eq, h]
  exact List.append_nil _

theorem rest_mem_tokens (h : rest p l ≠ []) : rest p l ∈ tokens p l := by
  rw [tokens_eq, List.mem_append, List.mem_filter, List.mem_singleton]
  exact Or.inr ⟨rfl, by simpa using h⟩

/-! ### One token after the other -/

theorem closed_of_all_not (ht : ∀ x ∈ t, p x = false) : closed p t = [] := by
  rw [closed, List.splitOnP_eq_singleton ht]
  rfl

theorem rest_of_all_not (ht : ∀ x ∈ t, p x = false) : rest p t = t := by
  simp only [rest, List.splitOnP_eq_singleton ht]
  rfl

theorem closed_append_cons (ht : ∀ x ∈ t, p x = false) (hne : t ≠ []) (hc : p c = true)
    (l : List α) : closed p (t ++ c :: l) = t :: closed p l := by
  rw [closed, closed, List.splitOnP_append_cons_of_forall_mem ht c hc,
    List.dropLast_cons_of_ne_nil (List.splitOnP_ne_nil p l), List.filter_cons_of_pos]
  simpa using hne

theorem rest_append_cons (ht : ∀ x ∈ t, p x = false) (hc : p c = true) (l : List α) :
    rest p (t ++ c :: l) = rest p l := by
  simp only [rest, List.splitOnP_append_cons_of_forall_mem ht c hc]
  exact List.getLast_cons (List.splitOnP_ne_nil p l)

theorem closed_cons (hc : p c = true) (l : List α) : closed p (c :: l) = closed p l := by
  rw [closed, closed, List.splitOnP_cons_eq_if_modifyHead, if_pos hc,
    List.dropLast_cons_of_ne_nil (List.splitOnP_ne_nil p l)]
  rfl

theorem rest_cons (hc : p c = true) (l : List α) : rest p (c :: l) = rest p l :=
  rest_append_cons (t := []) (fun _ h => absurd h List.not_mem_nil) hc l

/-- Separators in front of a list make no difference. -/
theorem closed_append (hg : ∀ x ∈ g, p x = true) (l : List α) :
    closed p (g ++ l) = closed p l := by
  induction g with
  | nil => rfl
  | cons c g ih =>
    rw [List.cons_append, closed_cons (hg c List.mem_cons_self)]
    exact ih fun x hx => hg x (List.mem_cons_of_mem c hx)

theorem rest_append (hg : ∀ x ∈ g, p x = true) (l : List α) : rest p (g ++ l) = rest p l := by
  induction g with
  | nil => rfl
  | cons c g ih =>
    rw [List.cons_append, rest_cons (hg c List.mem_cons_self)]
    exact ih fun x hx => hg x (List.mem_cons_of_mem c hx)

/-! ### Cutting -/

/-- The separators in front, and a list that does not begin with one. -/
theorem exists_lead (p : α → Bool) (l : List α) : ∃ g m, l = g ++ m ∧ (∀ x ∈ g, p x = true) ∧
    ∀ c, m.head? = some c → p c = false := by
  refine ⟨l.takeWhile p, l.dropWhile p, List.takeWhile_append_dropWhile.symm,
    fun x hx => List.mem_takeWhile_imp hx, ?_⟩
  intro c hc
  have h := List.head?_dropWhile_not p l
  rw [hc] at h
  simpa using h

/-- One token without a separator behind it, or a token, a separator and the rest. -/
theorem exists_token (p : α → Bool) (l : List α) : (∀ x ∈ l, p x = false) ∨
    ∃ t c m, l = t ++ c :: m ∧ (∀ x ∈ t, p x = false) ∧ p c = true := by
  obtain ⟨t, m, hl, ht, hm⟩ := exists_lead (fun x => !p x) l
  have hnot : ∀ x ∈ t, p x = false := fun x hx => by simpa using ht x hx
  cases m with
  | nil =>
    rw [List.append_nil] at hl
    exact Or.inl (hl ▸ hnot)
  | cons c m => exact Or.inr ⟨t, c, m, hl, hnot, by simpa using hm c rfl⟩

end CFunction.Tokens
