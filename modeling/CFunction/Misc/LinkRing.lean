import Mathlib.Data.List.Cycle
import Mathlib.Logic.Function.Iterate

/-!
# Circular doubly linked lists

A ring is a duplicate-free list of nodes, read from a chosen head, in which `next` leads to the
following node and `prev` back, the last node and the head being neighbours. Which node is the
head is only a matter of rotation (`IsRing.rotate`), so a node is inserted or removed before
the head, and the other end follows.
-/

namespace CFunction.LinkRing

variable {α : Type*} {next prev next' prev' : α → α}

/-- `b` follows `a`. -/
def Link (next prev : α → α) (a b : α) : Prop := next a = b ∧ prev b = a

/-- The nodes `ps`, in this order, form a ring. -/
structure IsRing (next prev : α → α) (ps : List α) : Prop where
  nodup : ps.Nodup
  chain : Cycle.Chain (Link next prev) (ps : Cycle α)

theorem isRing_nil : IsRing next prev [] := ⟨List.nodup_nil, Cycle.Chain.nil _⟩

theorem isRing_singleton {x : α} (hn : next x = x) (hp : prev x = x) : IsRing next prev [x] :=
  ⟨List.nodup_singleton x, (Cycle.chain_singleton _ x).2 ⟨hn, hp⟩⟩

/-- Choosing the second node as the head. -/
theorem isRing_rotate {x : α} {ps : List α} :
    IsRing next prev (x :: ps) ↔ IsRing next prev (ps ++ [x]) := by
  have hperm : (x :: ps).Nodup ↔ (ps ++ [x]).Nodup :=
    (List.perm_append_singleton x ps).symm.nodup_iff
  constructor
  · rintro ⟨hn, hc⟩
    exact ⟨hperm.1 hn, by rwa [← Cycle.coe_cons_eq_coe_append]⟩
  · rintro ⟨hn, hc⟩
    exact ⟨hperm.2 hn, by rwa [Cycle.coe_cons_eq_coe_append]⟩

/-- A ring, cut open before its head `h`. -/
theorem isRing_cons {h : α} {t : List α} :
    IsRing next prev (h :: t) ↔ (h :: t).Nodup ∧
      Link next prev ((h :: t).getLast (List.cons_ne_nil h t)) h ∧
      List.IsChain (Link next prev) (h :: t) := by
  constructor
  · rintro ⟨hn, hc⟩
    rw [Cycle.chain_ne_nil _ (List.cons_ne_nil h t), List.isChain_cons_cons] at hc
    exact ⟨hn, hc⟩
  · rintro ⟨hn, hc⟩
    refine ⟨hn, ?_⟩
    rw [Cycle.chain_ne_nil _ (List.cons_ne_nil h t), List.isChain_cons_cons]
    exact hc

/-- The links inside a segment survive changes of `prev` at its head and `next` at its end. -/
theorem segment_congr {h : α} {t : List α} (nodup : (h :: t).Nodup)
    (seg : List.IsChain (Link next prev) (h :: t))
    (hnext : ∀ a ∈ h :: t, a ≠ (h :: t).getLast (List.cons_ne_nil h t) → next' a = next a)
    (hprev : ∀ b ∈ t, prev' b = prev b) : List.IsChain (Link next' prev') (h :: t) := by
  rw [List.isChain_iff_forall_rel_of_append_cons_cons] at seg ⊢
  intro a b l₁ l₂ split
  have hlink := seg split
  have hlast : (h :: t).getLast (List.cons_ne_nil h t) ∈ b :: l₂ := by
    simp only [split, List.getLast_append_of_ne_nil _ (List.cons_ne_nil a (b :: l₂)),
      List.getLast_cons (List.cons_ne_nil b l₂)]
    exact List.getLast_mem _
  rw [split, List.nodup_append] at nodup
  refine ⟨(hnext a (by rw [split]; simp) ?_).trans hlink.1, (hprev b ?_).trans hlink.2⟩
  · intro same
    exact (List.nodup_cons.1 nodup.2.1).1 (same ▸ hlast)
  · cases l₁ with
    | nil => obtain ⟨-, rfl⟩ := List.cons.inj split; exact List.mem_cons_self
    | cons c l₁ => obtain ⟨-, rfl⟩ := List.cons.inj split; simp

/-- Only the links of its own nodes make a ring. -/
theorem IsRing.congr {ps : List α} (ring : IsRing next prev ps)
    (same : ∀ p ∈ ps, next' p = next p ∧ prev' p = prev p) : IsRing next' prev' ps := by
  cases ps with
  | nil => exact isRing_nil
  | cons h t =>
    obtain ⟨nodup, hlast, seg⟩ := isRing_cons.1 ring
    have transfer : ∀ a b, a ∈ h :: t → b ∈ h :: t → Link next prev a b → Link next' prev' a b := by
      rintro a b ha hb ⟨hn, hp⟩
      exact ⟨(same a ha).1.trans hn, (same b hb).2.trans hp⟩
    refine isRing_cons.2 ⟨nodup, ?_, seg.imp_of_mem_imp transfer⟩
    exact transfer _ _ (List.getLast_mem _) List.mem_cons_self hlast

/-- The node before the head is the last one. -/
theorem IsRing.prev_head {h : α} {t : List α} (ring : IsRing next prev (h :: t)) :
    prev h = (h :: t).getLast (List.cons_ne_nil h t) := (isRing_cons.1 ring).2.1.2

/-- Relinking around a new node `x` before the head `h`. -/
theorem IsRing.insert {h x : α} {t : List α} (ring : IsRing next prev (h :: t))
    (fresh : x ∉ h :: t) (hx : Link next' prev' x h) (hl : Link next' prev' (prev h) x)
    (hnext : ∀ a ∈ h :: t, a ≠ prev h → next' a = next a)
    (hprev : ∀ b ∈ t, prev' b = prev b) : IsRing next' prev' (x :: h :: t) := by
  obtain ⟨nodup, ⟨-, hlast⟩, seg⟩ := isRing_cons.1 ring
  rw [hlast] at hl hnext
  refine isRing_cons.2 ⟨List.nodup_cons.2 ⟨fresh, nodup⟩, ?_, ?_⟩
  · rwa [List.getLast_cons (List.cons_ne_nil h t)]
  · exact List.isChain_cons_cons.2 ⟨hx, segment_congr nodup seg hnext hprev⟩

/-- Relinking around the head `x` of a ring with at least one other node. -/
theorem IsRing.remove {h x : α} {t : List α} (ring : IsRing next prev (x :: h :: t))
    (hl : Link next' prev' (prev x) h)
    (hnext : ∀ a ∈ h :: t, a ≠ prev x → next' a = next a)
    (hprev : ∀ b ∈ t, prev' b = prev b) : IsRing next' prev' (h :: t) := by
  obtain ⟨nodup, ⟨-, hlast⟩, seg⟩ := isRing_cons.1 ring
  rw [hlast, List.getLast_cons (List.cons_ne_nil h t)] at hl hnext
  have seg' := (List.isChain_cons_cons.1 seg).2
  have nodup' := (List.nodup_cons.1 nodup).2
  exact isRing_cons.2 ⟨nodup', hl, segment_congr nodup' seg' hnext hprev⟩

/-- Any node can be chosen as the head. -/
theorem IsRing.turn {p : α} {l₁ l₂ : List α} (ring : IsRing next prev (l₁ ++ p :: l₂)) :
    IsRing next prev (p :: (l₂ ++ l₁)) := by
  induction l₁ generalizing l₂ with
  | nil => simpa using ring
  | cons a l₁ ih =>
    have once : IsRing next prev (l₁ ++ p :: (l₂ ++ [a])) := by
      rw [List.cons_append, isRing_rotate, List.append_assoc, List.cons_append] at ring
      exact ring
    simpa using ih once

/-- On the nodes of a ring `prev` is the inverse of `next`. -/
theorem IsRing.inverse {ps : List α} (ring : IsRing next prev ps) {p : α} (hp : p ∈ ps) :
    prev (next p) = p ∧ next (prev p) = p := by
  obtain ⟨l₁, l₂, rfl⟩ := List.append_of_mem hp
  obtain ⟨-, hlast, seg⟩ := isRing_cons.1 ring.turn
  refine ⟨?_, hlast.2 ▸ hlast.1⟩
  cases hrest : l₂ ++ l₁ with
  | nil =>
    simp only [hrest, List.getLast_singleton] at hlast
    rw [hlast.1, hlast.2]
  | cons b l =>
    rw [hrest] at seg
    obtain ⟨h1, h2⟩ := (List.isChain_cons_cons.1 seg).1
    rw [h1, h2]

/-- Following `next` from the head visits the nodes in order and comes back to the head. -/
theorem IsRing.iterate {h : α} {t : List α} (ring : IsRing next prev (h :: t)) :
    (∀ i (hi : i < (h :: t).length), next^[i] h = (h :: t)[i]) ∧
      next^[(h :: t).length] h = h := by
  obtain ⟨-, hlast, seg⟩ := isRing_cons.1 ring
  rw [List.isChain_iff_getElem] at seg
  have visit : ∀ i (hi : i < (h :: t).length), next^[i] h = (h :: t)[i] := by
    intro i
    induction i with
    | zero => intro _; rfl
    | succ i ih =>
      intro hi
      rw [Function.iterate_succ_apply', ih (by omega)]
      exact (seg i hi).1
  refine ⟨visit, ?_⟩
  rw [List.length_cons, Function.iterate_succ_apply', visit t.length (by simp)]
  rw [List.getLast_eq_getElem] at hlast
  exact hlast.1

/-! ### Paths -/

/-- Following `next` leads through `ps` and then to `last`. -/
def Path (next : α → α) (last : α) : List α → Prop
  | [] => True
  | p :: ps => next p = ps.headD last ∧ Path next last ps

theorem Path.congr {last : α} {ps : List α} (path : Path next last ps)
    (same : ∀ p ∈ ps, next' p = next p) : Path next' last ps := by
  induction ps with
  | nil => trivial
  | cons p ps ih =>
    refine ⟨(same p List.mem_cons_self).trans path.1, ih path.2 ?_⟩
    exact fun q hq => same q (List.mem_cons_of_mem p hq)

theorem path_of_chain {last p : α} {ps : List α} (chain : List.IsChain (Link next prev) (p :: ps))
    (back : next ((p :: ps).getLast (List.cons_ne_nil p ps)) = last) :
    Path next last (p :: ps) := by
  induction ps generalizing p with
  | nil => exact ⟨back, trivial⟩
  | cons q ps ih =>
    obtain ⟨hlink, hrest⟩ := List.isChain_cons_cons.1 chain
    refine ⟨hlink.1, ih hrest ?_⟩
    rwa [List.getLast_cons (List.cons_ne_nil q ps)] at back

/-- A ring is a path from the head around to the head. -/
theorem IsRing.path {h : α} {t : List α} (ring : IsRing next prev (h :: t)) :
    Path next h (h :: t) := by
  obtain ⟨-, hlast, seg⟩ := isRing_cons.1 ring
  exact path_of_chain seg hlast.1

end CFunction.LinkRing
