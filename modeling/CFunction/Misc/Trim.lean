import Mathlib.Data.List.DropRight

/-!
# Trimming

A list without the elements at its two ends that satisfy a predicate. What is left is tight: it
neither begins nor ends with such an element.
-/

namespace CFunction.Trim

variable {α : Type*} {p : α → Bool} {l t a b core : List α}

/-- `l` without the elements at its ends that satisfy `p`. -/
def trim (p : α → Bool) (l : List α) : List α := (l.dropWhile p).rdropWhile p

/-- Nothing to trim. -/
structure Tight (p : α → Bool) (core : List α) : Prop where
  first : ∀ c, core.head? = some c → p c = false
  last : ∀ c, core.getLast? = some c → p c = false

theorem tight_nil : Tight p [] :=
  ⟨fun _ h => absurd h (by simp), fun _ h => absurd h (by simp)⟩

theorem dropWhile_of_first (h : ∀ c, l.head? = some c → p c = false) : l.dropWhile p = l := by
  cases l with
  | nil => rfl
  | cons c l =>
    have hc : p c = false := h c rfl
    rw [List.dropWhile_cons, hc]
    rfl

theorem rdropWhile_append_of_all (hb : ∀ c ∈ b, p c) :
    (l ++ b).rdropWhile p = l.rdropWhile p := by
  have hrev : ∀ c ∈ b.reverse, p c := fun c hc => hb c (List.mem_reverse.1 hc)
  rw [List.rdropWhile, List.reverse_append, List.dropWhile_append_of_pos hrev, List.rdropWhile]

theorem rdropWhile_of_last (h : ∀ c, l.getLast? = some c → p c = false) :
    l.rdropWhile p = l := by
  rw [List.rdropWhile, dropWhile_of_first, List.reverse_reverse]
  intro c hc
  rw [List.head?_reverse] at hc
  exact h c hc

/-- What the ends are trimmed to is determined by the ends. -/
theorem trim_append (ha : ∀ c ∈ a, p c) (hb : ∀ c ∈ b, p c) (hcore : Tight p core) :
    trim p (a ++ core ++ b) = core := by
  rw [trim, List.append_assoc, List.dropWhile_append_of_pos ha]
  cases core with
  | nil =>
    rw [List.nil_append, List.dropWhile_eq_nil_iff.2 hb, List.rdropWhile_nil]
  | cons c core =>
    have hfirst : ((c :: core) ++ b).dropWhile p = (c :: core) ++ b :=
      dropWhile_of_first fun d hd => hcore.first d hd
    rw [hfirst, rdropWhile_append_of_all hb, rdropWhile_of_last hcore.last]

theorem exists_trim (p : α → Bool) (l : List α) :
    ∃ a b, l = a ++ trim p l ++ b ∧ (∀ c ∈ a, p c) ∧ (∀ c ∈ b, p c) ∧ Tight p (trim p l) := by
  refine ⟨l.takeWhile p, (l.dropWhile p).rtakeWhile p, ?_, fun c hc => List.mem_takeWhile_imp hc,
    fun c hc => List.mem_rtakeWhile_imp hc, ?_, ?_⟩
  · rw [trim, List.append_assoc, List.rdropWhile_append_rtakeWhile,
      List.takeWhile_append_dropWhile]
  · intro c hc
    have hhead : (l.dropWhile p).head? = some c := by
      obtain ⟨v, hv⟩ := List.rdropWhile_prefix p (l := l.dropWhile p)
      rw [← hv, List.head?_append]
      rw [trim] at hc
      rw [hc]
      rfl
    have hnot := List.head?_dropWhile_not p l
    rw [hhead] at hnot
    exact hnot
  · intro c hc
    obtain ⟨hne, rfl⟩ := List.mem_getLast?_eq_getLast hc
    exact Bool.eq_false_iff.2 (List.rdropWhile_last_not p _ hne)

theorem tight_trim (p : α → Bool) (l : List α) : Tight p (trim p l) := by
  obtain ⟨a, b, -, -, -, h⟩ := exists_trim p l
  exact h

theorem trim_of_tight (h : Tight p l) : trim p l = l := by
  have htrim := trim_append (a := []) (b := []) (fun c hc => absurd hc List.not_mem_nil)
    (fun c hc => absurd hc List.not_mem_nil) h
  rwa [List.nil_append, List.append_nil] at htrim

theorem trim_eq_nil_iff : trim p l = [] ↔ ∀ c ∈ l, p c := by
  constructor
  · intro h
    obtain ⟨a, b, hl, ha, hb, -⟩ := exists_trim p l
    rw [h, List.append_nil] at hl
    intro c hc
    rw [hl, List.mem_append] at hc
    exact hc.elim (ha c) (hb c)
  · intro h
    have htrim := trim_append (a := l) (b := []) h (fun c hc => absurd hc List.not_mem_nil)
      (tight_nil (p := p))
    rwa [List.append_nil, List.append_nil] at htrim

theorem length_trim_le (p : α → Bool) (l : List α) : (trim p l).length ≤ l.length := by
  obtain ⟨a, b, hl, -⟩ := exists_trim p l
  have hlen := congrArg List.length hl
  rw [List.length_append, List.length_append] at hlen
  omega

/-- More of what is trimmed anyway. -/
theorem trim_append_of_all (ht : ∀ c ∈ t, p c) : trim p (l ++ t) = trim p l := by
  obtain ⟨a, b, hl, ha, hb, hcore⟩ := exists_trim p l
  have hends : ∀ c ∈ b ++ t, p c := by
    intro c hc
    exact (List.mem_append.1 hc).elim (hb c) (ht c)
  calc trim p (l ++ t)
      = trim p (a ++ trim p l ++ (b ++ t)) := by rw [← List.append_assoc, ← hl]
    _ = trim p l := trim_append ha hends hcore

/-- More of what is kept. -/
theorem trim_append_ne (ht : ¬ ∀ c ∈ t, p c) : trim p (l ++ t) ≠ trim p l := by
  intro h
  by_cases hnil : trim p l = []
  · rw [hnil, trim_eq_nil_iff] at h
    exact ht fun c hc => h c (List.mem_append_right l hc)
  · obtain ⟨a, b, hl, ha, -, hcore⟩ := exists_trim p l
    obtain ⟨a', b', ht', -, hb', hcore'⟩ := exists_trim p t
    have hne : trim p t ≠ [] := fun hnone => ht (trim_eq_nil_iff.1 hnone)
    -- the core of `l ++ t` reaches from the core of `l` to the one of `t`
    have hlong : trim p (a ++ (trim p l ++ (b ++ a') ++ trim p t) ++ b') =
        trim p l ++ (b ++ a') ++ trim p t := by
      refine trim_append ha hb' ⟨?_, ?_⟩
      · intro c hc
        rw [List.append_assoc, List.head?_append_of_ne_nil _ hnil] at hc
        exact hcore.first c hc
      · intro c hc
        rw [List.getLast?_append_of_ne_nil _ hne] at hc
        exact hcore'.last c hc
    have hbytes : l ++ t = a ++ (trim p l ++ (b ++ a') ++ trim p t) ++ b' := by
      calc l ++ t
          = (a ++ trim p l ++ b) ++ (a' ++ trim p t ++ b') := by rw [← hl, ← ht']
        _ = _ := by simp only [List.append_assoc]
    rw [hbytes, hlong] at h
    have hlen := congrArg List.length h
    have hpos := List.length_pos_iff.2 hne
    simp only [List.length_append] at hlen
    omega

end CFunction.Trim
