import Mathlib.Data.Finset.Card
import Mathlib.Data.List.Nodup
import Mathlib.Logic.Function.Basic

/-!
# Trees in a map of children

A map gives the children of some nodes. `Forest` collects the nodes at and below a list of roots,
each in front of what is below it. When a node has one parent at most, the forest below nodes that
have none exists, also where other nodes are on a cycle.
-/

namespace CFunction

variable {α : Type*} {s s' : α → Option (List α)} {xs ys ps all all' : List α} {x p q : α}

/-- `all` are the roots `xs` and the nodes below them. -/
inductive Forest (s : α → Option (List α)) : List α → List α → Prop
  | nil : Forest s [] []
  | cons {x : α} {ps xs below rest : List α} (children : s x = some ps)
      (hbelow : Forest s ps below) (hrest : Forest s xs rest) :
      Forest s (x :: xs) (x :: (below ++ rest))

namespace Forest

theorem roots (h : Forest s xs all) : xs ⊆ all := by
  induction h with
  | nil => exact List.Subset.refl []
  | cons _ _ _ _ ih =>
    exact List.cons_subset_cons _ (List.subset_append_of_subset_right _ ih)

theorem isSome (h : Forest s xs all) : ∀ p ∈ all, (s p).isSome := by
  induction h with
  | nil => exact fun p hp => absurd hp List.not_mem_nil
  | cons children _ _ ihbelow ihrest =>
    intro p hp
    rcases List.mem_cons.1 hp with rfl | hp
    · rw [children]
      rfl
    rcases List.mem_append.1 hp with hp | hp
    · exact ihbelow p hp
    · exact ihrest p hp

/-- The children of a node of the forest are in it. -/
theorem closed (h : Forest s xs all) : ∀ p ∈ all, ∀ ps, s p = some ps → ps ⊆ all := by
  induction h with
  | nil => exact fun p hp => absurd hp List.not_mem_nil
  | cons children hbelow _ ihbelow ihrest =>
    intro p hp qs hqs
    refine List.subset_cons_of_subset _ ?_
    rcases List.mem_cons.1 hp with rfl | hp
    · obtain rfl := Option.some.inj (children.symm.trans hqs)
      exact List.subset_append_of_subset_left _ hbelow.roots
    rcases List.mem_append.1 hp with hp | hp
    · exact List.subset_append_of_subset_left _ (ihbelow p hp qs hqs)
    · exact List.subset_append_of_subset_right _ (ihrest p hp qs hqs)

/-- A node of the forest is a root or a child of another one. -/
theorem root_or_child (h : Forest s xs all) :
    ∀ p ∈ all, p ∈ xs ∨ ∃ q ∈ all, ∃ ps, s q = some ps ∧ p ∈ ps := by
  induction h with
  | nil => exact fun p hp => absurd hp List.not_mem_nil
  | @cons x ps xs below rest children _ _ ihbelow ihrest =>
    intro p hp
    rcases List.mem_cons.1 hp with rfl | hp
    · exact Or.inl List.mem_cons_self
    rcases List.mem_append.1 hp with hp | hp
    · right
      rcases ihbelow p hp with hroot | ⟨q, hq, hchild⟩
      · exact ⟨x, List.mem_cons_self, ps, children, hroot⟩
      · exact ⟨q, List.mem_cons_of_mem x (List.mem_append_left _ hq), hchild⟩
    · rcases ihrest p hp with hroot | ⟨q, hq, hchild⟩
      · exact Or.inl (List.mem_cons_of_mem x hroot)
      · exact Or.inr ⟨q, List.mem_cons_of_mem x (List.mem_append_right _ hq), hchild⟩

theorem unique (h : Forest s xs all) : ∀ {all'}, Forest s xs all' → all = all' := by
  induction h with
  | nil =>
    intro all' h'
    cases h'
    rfl
  | cons children _ _ ihbelow ihrest =>
    intro all' h'
    cases h' with
    | cons children' hbelow' hrest' =>
      obtain rfl := Option.some.inj (children.symm.trans children')
      rw [ihbelow hbelow', ihrest hrest']

theorem of_append (h : Forest s (xs ++ ys) all) :
    ∃ a b, all = a ++ b ∧ Forest s xs a ∧ Forest s ys b := by
  induction xs generalizing all with
  | nil => exact ⟨[], all, rfl, .nil, h⟩
  | cons x xs ih =>
    cases h with
    | cons children hbelow hrest =>
      obtain ⟨a, b, rfl, ha, hb⟩ := ih hrest
      exact ⟨_, b, by rw [List.cons_append, List.append_assoc], .cons children hbelow ha, hb⟩

/-- A map that knows more nodes has the forest, too. -/
theorem mono (h : Forest s xs all) (hle : ∀ p ps, s p = some ps → s' p = some ps) :
    Forest s' xs all := by
  induction h with
  | nil => exact .nil
  | cons children _ _ ihbelow ihrest => exact .cons (hle _ _ children) ihbelow ihrest

end Forest

/-- Every node is a child at most once, and children are nodes. -/
structure OneParent (s : α → Option (List α)) : Prop where
  apart : ∀ a b ps qs p, s a = some ps → s b = some qs → p ∈ ps → p ∈ qs → a = b
  nodup : ∀ a ps, s a = some ps → ps.Nodup
  known : ∀ a ps, s a = some ps → ∀ p ∈ ps, (s p).isSome

/-- A node without a parent. -/
def Orphan (s : α → Option (List α)) (x : α) : Prop :=
  (s x).isSome ∧ ∀ a ps, s a = some ps → x ∉ ps

section Remove

variable [DecidableEq α]

theorem update_none_eq_some (h : Function.update s x none p = some ps) : p ≠ x ∧ s p = some ps := by
  by_cases hp : p = x
  · rw [hp, Function.update_self] at h
    cases h
  · rw [Function.update_of_ne hp] at h
    exact ⟨hp, h⟩

/-- Without an orphan its children are orphans. -/
theorem OneParent.remove (h : OneParent s) (hx : Orphan s x) :
    OneParent (Function.update s x none) where
  apart _ _ _ _ p ha hb :=
    h.apart _ _ _ _ p (update_none_eq_some ha).2 (update_none_eq_some hb).2
  nodup a ps ha := h.nodup a ps (update_none_eq_some ha).2
  known a ps ha p hp := by
    have hs := (update_none_eq_some ha).2
    have hne : p ≠ x := fun he => hx.2 a ps hs (he ▸ hp)
    rw [Function.update_of_ne hne]
    exact h.known a ps hs p hp

theorem Orphan.remove (hp : Orphan s p) (hne : p ≠ x) : Orphan (Function.update s x none) p := by
  refine ⟨?_, fun a ps ha => hp.2 a ps (update_none_eq_some ha).2⟩
  rw [Function.update_of_ne hne]
  exact hp.1

theorem OneParent.orphan_child (h : OneParent s) (hx : Orphan s x) (hs : s x = some ps)
    (hp : p ∈ ps) : Orphan (Function.update s x none) p := by
  have hne : p ≠ x := fun he => hx.2 x ps hs (he ▸ hp)
  refine ⟨?_, fun a qs ha hmem => ?_⟩
  · rw [Function.update_of_ne hne]
    exact h.known x ps hs p hp
  · obtain ⟨hax, has⟩ := update_none_eq_some ha
    exact hax (h.apart a x qs ps p has hs hmem hp)

/-- The forest below orphans. -/
theorem OneParent.exists_forest {F : Finset α} (hfinite : ∀ p, (s p).isSome → p ∈ F)
    (h : OneParent s) (hxs : xs.Nodup) (horphans : ∀ x ∈ xs, Orphan s x) :
    ∃ all, Forest s xs all ∧ all.Nodup := by
  induction F using Finset.strongInduction generalizing s xs with
  | H F ih =>
    cases xs with
    | nil => exact ⟨[], .nil, List.nodup_nil⟩
    | cons x rest =>
      have hx := horphans x List.mem_cons_self
      obtain ⟨ps, hs⟩ := Option.isSome_iff_exists.1 hx.1
      obtain ⟨hxrest, hrest⟩ := List.nodup_cons.1 hxs
      have horphan : ∀ p ∈ rest, Orphan s p := fun p hp =>
        horphans p (List.mem_cons_of_mem x hp)
      -- without `x` its children join the rest of the roots
      have hsmaller : ∀ p, (Function.update s x none p).isSome → p ∈ F.erase x := by
        intro p hp
        by_cases hpx : p = x
        · rw [hpx, Function.update_self] at hp
          cases hp
        · rw [Function.update_of_ne hpx] at hp
          exact Finset.mem_erase.2 ⟨hpx, hfinite p hp⟩
      have hroots : (ps ++ rest).Nodup :=
        List.nodup_append.2 ⟨h.nodup x ps hs, hrest, fun p hp r hr hpr =>
          (horphan r hr).2 x ps hs (hpr ▸ hp)⟩
      obtain ⟨all, hforest, hall⟩ := ih (F.erase x) (Finset.erase_ssubset (hfinite x hx.1))
        hsmaller (h.remove hx) hroots fun p hp => by
          rcases List.mem_append.1 hp with hp | hp
          · exact h.orphan_child hx hs hp
          · exact (horphan p hp).remove fun he => hxrest (he ▸ hp)
      have hxall : x ∉ all := by
        intro hmem
        have hsome := hforest.isSome x hmem
        rw [Function.update_self] at hsome
        cases hsome
      obtain ⟨a, b, rfl, ha, hb⟩ := hforest.of_append
      have hback : ∀ p ps, Function.update s x none p = some ps → s p = some ps :=
        fun p ps hp => (update_none_eq_some hp).2
      exact ⟨x :: (a ++ b), .cons hs (ha.mono hback) (hb.mono hback),
        List.nodup_cons.2 ⟨hxall, hall⟩⟩

end Remove

end CFunction
