import Mathlib.Data.List.Basic

/-!
# Separated fields

A list cut at the occurrences of a separator. `after` is what stands behind the first one, and
`afterN k` behind the `k`-th; the fields themselves are free of separators.
-/

namespace CFunction.Fields

variable {α : Type*} [DecidableEq α]

/-- What stands behind the first `sep`. -/
def after (sep : α) : List α → Option (List α)
  | [] => none
  | c :: t => if c = sep then some t else after sep t

/-- What stands behind the `k`-th `sep`. -/
def afterN (sep : α) : Nat → List α → Option (List α)
  | 0, l => some l
  | k + 1, l => (after sep l).bind (afterN sep k)

/-- The fields one after the other, with a `sep` between them. -/
def join (sep : α) : List (List α) → List α
  | [] => []
  | [f] => f
  | f :: g :: fs => f ++ sep :: join sep (g :: fs)

variable {sep : α} {f l t : List α}

theorem after_append (hf : sep ∉ f) (t : List α) : after sep (f ++ sep :: t) = some t := by
  induction f with
  | nil => simp [after]
  | cons c f ih =>
    obtain ⟨hc, hf⟩ := not_or.1 (fun h => hf (List.mem_cons.2 h))
    rw [List.cons_append, after, if_neg (Ne.symm hc), ih hf]

theorem after_of_notMem (h : sep ∉ l) : after sep l = none := by
  induction l with
  | nil => rfl
  | cons c l ih =>
    obtain ⟨hc, hl⟩ := not_or.1 (fun h' => h (List.mem_cons.2 h'))
    rw [after, if_neg (Ne.symm hc), ih hl]

/-- A list without `sep`, or with a first field and a rest. -/
theorem after_cases (sep : α) (l : List α) :
    (sep ∉ l ∧ after sep l = none) ∨
      ∃ f t, sep ∉ f ∧ l = f ++ sep :: t ∧ after sep l = some t := by
  by_cases h : sep ∈ l
  · obtain ⟨f, t, rfl, hf⟩ := List.eq_append_cons_of_mem h
    exact .inr ⟨f, t, hf, rfl, after_append hf t⟩
  · exact .inl ⟨h, after_of_notMem h⟩

theorem after_suffix (h : after sep l = some t) : t <:+ l := by
  rcases after_cases sep l with ⟨-, hnone⟩ | ⟨f, t', -, rfl, hsome⟩
  · rw [hnone] at h
    exact absurd h (by simp)
  · obtain rfl : t' = t := Option.some.inj (hsome.symm.trans h)
    exact (List.suffix_cons sep t').trans (List.suffix_append f _)

theorem afterN_suffix {k : Nat} (h : afterN sep k l = some t) : t <:+ l := by
  induction k generalizing l with
  | zero => exact Option.some.inj h ▸ List.suffix_rfl
  | succ k ih =>
    obtain ⟨l', hafter, hrest⟩ := Option.bind_eq_some_iff.1 h
    exact (ih hrest).trans (after_suffix hafter)

theorem afterN_succ_cons (k : Nat) (c : α) (l : List α) :
    afterN sep (k + 1) (c :: l) = afterN sep (if c = sep then k else k + 1) l := by
  rw [afterN, after]
  split
  · rfl
  · rw [afterN]

theorem count_after (h : after sep l = some t) : l.count sep = t.count sep + 1 := by
  rcases after_cases sep l with ⟨-, hnone⟩ | ⟨f, t', hf, rfl, hsome⟩
  · rw [hnone] at h
    exact absurd h (by simp)
  · obtain rfl : t' = t := Option.some.inj (hsome.symm.trans h)
    rw [List.count_append, List.count_eq_zero.2 hf, List.count_cons_self, Nat.zero_add]

theorem count_of_after_eq_none (h : after sep l = none) : l.count sep = 0 := by
  rcases after_cases sep l with ⟨hno, -⟩ | ⟨f, t, -, rfl, hsome⟩
  · exact List.count_eq_zero.2 hno
  · rw [hsome] at h
    exact absurd h (by simp)

theorem count_afterN {k : Nat} (h : afterN sep k l = some t) :
    l.count sep = t.count sep + k := by
  induction k generalizing l with
  | zero => rw [Option.some.inj h]; rfl
  | succ k ih =>
    obtain ⟨l', hafter, hrest⟩ := Option.bind_eq_some_iff.1 h
    rw [count_after hafter, ih hrest, Nat.add_assoc]

/-- There is a `k`-th separator if there are at least `k`. -/
theorem afterN_isSome (k : Nat) (l : List α) : (afterN sep k l).isSome ↔ k ≤ l.count sep := by
  induction k generalizing l with
  | zero => simp [afterN]
  | succ k ih =>
    rw [afterN]
    cases h : after sep l with
    | none => simp [count_of_after_eq_none h]
    | some t => rw [Option.bind_some, ih, count_after h, Nat.add_le_add_iff_right]

/-- A separator in `l` is the first one whatever follows `l`. -/
theorem after_append_of_some (h : after sep l = some t) (m : List α) :
    after sep (l ++ m) = some (t ++ m) := by
  rcases after_cases sep l with ⟨-, hnone⟩ | ⟨f, t', hf, rfl, hsome⟩
  · rw [hnone] at h
    exact absurd h (by simp)
  · obtain rfl : t' = t := Option.some.inj (hsome.symm.trans h)
    rw [List.append_assoc, List.cons_append, after_append hf]

theorem afterN_append_of_some {k : Nat} (h : afterN sep k l = some t) (m : List α) :
    afterN sep k (l ++ m) = some (t ++ m) := by
  induction k generalizing l with
  | zero => rw [Option.some.inj h]; rfl
  | succ k ih =>
    obtain ⟨l', hafter, hrest⟩ := Option.bind_eq_some_iff.1 h
    rw [afterN, after_append_of_some hafter, Option.bind_some, ih hrest]

/-- Without further separators in what follows, the separators are those of `l`. -/
theorem after_append_of_notMem (l : List α) {m : List α} (hm : sep ∉ m) :
    after sep (l ++ m) = (after sep l).map (· ++ m) := by
  cases h : after sep l with
  | none =>
    have hno : sep ∉ l := List.count_eq_zero.1 (count_of_after_eq_none h)
    rw [after_of_notMem (fun h => (List.mem_append.1 h).elim hno hm)]
    rfl
  | some t => rw [after_append_of_some h]; rfl

theorem afterN_append (k : Nat) (l : List α) {m : List α} (hm : sep ∉ m) :
    afterN sep k (l ++ m) = (afterN sep k l).map (· ++ m) := by
  induction k generalizing l with
  | zero => rfl
  | succ k ih =>
    rw [afterN, afterN, after_append_of_notMem l hm]
    cases after sep l with
    | none => rfl
    | some t => exact ih t

omit [DecidableEq α] in
theorem mem_join {x : α} {fs : List (List α)} (h : x ∈ join sep fs) :
    x = sep ∨ ∃ f ∈ fs, x ∈ f := by
  induction fs with
  | nil => exact absurd h List.not_mem_nil
  | cons f fs ih =>
    cases fs with
    | nil => exact .inr ⟨f, List.mem_singleton_self f, h⟩
    | cons g fs =>
      rw [join, List.mem_append, List.mem_cons] at h
      rcases h with hf | hsep | htail
      · exact .inr ⟨f, List.mem_cons_self, hf⟩
      · exact .inl hsep
      · rcases ih htail with hsep | ⟨f', hf', hx⟩
        · exact .inl hsep
        · exact .inr ⟨f', List.mem_cons_of_mem f hf', hx⟩

omit [DecidableEq α] in
theorem join_cons (f : List α) {fs : List (List α)} (h : fs ≠ []) :
    join sep (f :: fs) = f ++ sep :: join sep fs := by
  cases fs with
  | nil => exact absurd rfl h
  | cons g fs => rfl

/-- Behind the `k`-th separator stand the fields from the `k`-th on. -/
theorem afterN_join : ∀ (k : Nat) (fs : List (List α)), (∀ f ∈ fs, sep ∉ f) → k < fs.length →
    ∀ m, afterN sep k (join sep fs ++ m) = some (join sep (fs.drop k) ++ m) := by
  intro k
  induction k with
  | zero => exact fun fs _ _ m => rfl
  | succ k ih =>
    intro fs hfs hk m
    cases fs with
    | nil => exact absurd hk (by simp)
    | cons f fs =>
      have hne : fs ≠ [] := by
        rintro rfl
        simp at hk
      rw [join_cons f hne, afterN, List.append_assoc, List.cons_append,
        after_append (hfs f List.mem_cons_self), Option.bind_some,
        ih fs (fun g hg => hfs g (List.mem_cons_of_mem f hg)) (by simpa using hk),
        List.drop_succ_cons]

omit [DecidableEq α] in
/-- The fields from the `k`-th on begin with it. -/
theorem join_drop {fs : List (List α)} {k : Nat} (h : k + 1 < fs.length) :
    join sep (fs.drop k) = fs.getD k [] ++ sep :: join sep (fs.drop (k + 1)) := by
  have hk : k < fs.length := Nat.lt_of_succ_lt h
  have hne : fs.drop (k + 1) ≠ [] := List.drop_eq_nil_iff.not.2 (Nat.not_le.2 h)
  rw [List.drop_eq_getElem_cons hk, join_cons _ hne, List.getD_eq_getElem?_getD,
    List.getElem?_eq_getElem hk]
  rfl

end CFunction.Fields
