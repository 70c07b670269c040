import CFunction.Json.Proofs.SiblingDelete
import CFunction.Misc.Runs

/-!
# Runs of the list functions

To the caller the children of an item are a list of items, and every item stands in one list at
most. As long as only loose items are put into lists, the links follow the lists. An item that is
replaced is deleted with everything below it, and its address may be handed out again.
-/

namespace CFunction
namespace Siblings

/-! ### Lists of items -/

/-- The children of every item that is allocated. -/
abbrev Shelf := Ptr → Option (List Ptr)

/-- An item that stands in no list. -/
abbrev Loose (s : Shelf) (x : Ptr) : Prop := Orphan s x

/-- The items `freed` are gone. -/
def Shelf.without (s : Shelf) (freed : List Ptr) : Shelf := fun p =>
  if p ∈ freed then none else s p

inductive Call where
  | newItem (p : Ptr)
  | addItem (array item : Ptr)
  | insertItem (array : Ptr) (which : Nat) (newitem : Ptr)
  | detachItem (parent item : Ptr)
  | replaceItem (parent item replacement : Ptr)

/-- What a call does to the lists. -/
inductive Moves (s : Shelf) : Call → Shelf → Prop where
  | newItem {p : Ptr} (hp : p ≠ 0) (hs : s p = none) :
    Moves s (.newItem p) (Function.update s p (some []))
  | addItem {a x : Ptr} {ps : List Ptr} (hs : s a = some ps) (hx : Loose s x) (hne : a ≠ x) :
    Moves s (.addItem a x) (Function.update s a (some (ps ++ [x])))
  | insertItem {a x : Ptr} {which : Nat} {ps : List Ptr} (hs : s a = some ps) (hx : Loose s x)
    (hne : a ≠ x) :
    Moves s (.insertItem a which x)
      (Function.update s a (some (ps.take which ++ x :: ps.drop which)))
  | detachItem {a x : Ptr} {l₁ l₂ : List Ptr} (hs : s a = some (l₁ ++ x :: l₂)) :
    Moves s (.detachItem a x) (Function.update s a (some (l₁ ++ l₂)))
  | replaceItem {a x r : Ptr} {l₁ l₂ freed : List Ptr} (hs : s a = some (l₁ ++ x :: l₂))
    (hr : Loose s r) (hfreed : Forest (Function.update s a (some (l₁ ++ r :: l₂))) [x] freed) :
    Moves s (.replaceItem a x r)
      (Shelf.without (Function.update s a (some (l₁ ++ r :: l₂))) freed)

/-- The call in the memory. -/
def Executes (h : Memory) : Call → Memory → Prop
  | .newItem p, h' => newItem h p = some h'
  | .addItem array item, h' => addItemToArray h array item = some (h', true)
  | .insertItem array which newitem, h' => insertItemInArray h array which newitem = some (h', true)
  | .detachItem parent item, h' => detachItemViaPointer h parent item = some (h', item)
  | .replaceItem parent item replacement, h' =>
    ∃ n, ∀ fuel, n ≤ fuel → replaceItemViaPointer fuel h parent item replacement = some (h', true)

/-! ### The links follow -/

/-- The memory holds the lists. -/
structure Holds (h : Memory) (s : Shelf) : Prop where
  live : ∀ p, h.live p = (s p).isSome
  children : ∀ a ps, s a = some ps → Children h a ps
  apart : ∀ a b ps qs p, s a = some ps → s b = some qs → p ∈ ps → p ∈ qs → a = b
  loose : ∀ x, Loose s x → h.next x = 0
  finite : ∃ F : Finset Ptr, ∀ p, (s p).isSome → p ∈ F

variable {h h' : Memory} {s s' : Shelf} {a x : Ptr} {ps ps' touched freed : List Ptr}

theorem Holds.live_of_loose (H : Holds h s) (hx : Loose s x) : h.live x := by
  rw [H.live]
  exact hx.1

theorem Holds.oneParent (H : Holds h s) : OneParent s where
  apart := H.apart
  nodup a ps hs := (H.children a ps hs).nodup
  known a ps hs p hp := by
    rw [← H.live]
    exact (H.children a ps hs).live p hp

/-- Relinking one list leaves the others. -/
theorem Holds.relink (H : Holds h s) (hs : s a = some ps) (hc : Children h' a ps')
    (hf : Frame h h' a touched) (hold : ∀ p ∈ ps, p ∈ touched) (hnew : ∀ p ∈ ps', p ∈ touched)
    (hfrom : ∀ p ∈ touched, p ∈ ps ∨ Loose s p)
    (hloose : ∀ p ∈ touched, p ∉ ps' → h'.next p = 0) :
    Holds h' (Function.update s a (some ps')) := by
  have hother : ∀ b qs, b ≠ a → s b = some qs → ∀ p ∈ qs, p ∉ touched := by
    intro b qs hb hbs p hp htouched
    rcases hfrom p htouched with hps | hfree
    · exact hb (H.apart b a qs ps p hbs hs hp hps)
    · exact hfree.2 b qs hbs hp
  have hget : ∀ b qs, Function.update s a (some ps') b = some qs →
      b = a ∧ qs = ps' ∨ b ≠ a ∧ s b = some qs := by
    intro b qs hb
    by_cases hba : b = a
    · rw [hba, Function.update_self] at hb
      exact Or.inl ⟨hba, (Option.some.inj hb).symm⟩
    · rw [Function.update_of_ne hba] at hb
      exact Or.inr ⟨hba, hb⟩
  obtain ⟨F, hfinite⟩ := H.finite
  refine ⟨?_, ?_, ?_, ?_, F, ?_⟩
  · intro p
    rw [hf.live, H.live]
    by_cases hpa : p = a
    · rw [hpa, hs, Function.update_self]
      rfl
    · rw [Function.update_of_ne hpa]
  · intro b qs hb
    rcases hget b qs hb with ⟨rfl, rfl⟩ | ⟨hba, hbs⟩
    · exact hc
    · have hcb := H.children b qs hbs
      refine ⟨?_, ?_, ?_, ?_, hcb.nodup⟩
      · rw [hf.live]
        exact hcb.parent_live
      · rw [hf.child b hba]
        exact hcb.child
      · exact hcb.linked.congr (fun p hp => hf.next p (hother b qs hba hbs p hp))
          fun p hp => hf.prev p (hother b qs hba hbs p hp)
      · intro p hp
        rw [hf.live]
        exact hcb.live p hp
  · intro b c qs rs p hb hc' hpq hpr
    rcases hget b qs hb with ⟨rfl, rfl⟩ | ⟨hba, hbs⟩
    · rcases hget c rs hc' with ⟨rfl, -⟩ | ⟨hca, hcs⟩
      · rfl
      · exact absurd (hnew p hpq) (hother c rs hca hcs p hpr)
    · rcases hget c rs hc' with ⟨rfl, rfl⟩ | ⟨hca, hcs⟩
      · exact absurd (hnew p hpr) (hother b qs hba hbs p hpq)
      · exact H.apart b c qs rs p hbs hcs hpq hpr
  · rintro y ⟨hy, hfree⟩
    have hlive : (s y).isSome := by
      by_cases hya : y = a
      · rw [hya, hs]
        rfl
      · rwa [Function.update_of_ne hya] at hy
    have hps' : y ∉ ps' := hfree a ps' (Function.update_self ..)
    by_cases htouched : y ∈ touched
    · exact hloose y htouched hps'
    · rw [hf.next y htouched]
      refine H.loose y ⟨hlive, fun b qs hb hmem => ?_⟩
      by_cases hba : b = a
      · rw [hba, hs] at hb
        cases hb
        exact htouched (hold y hmem)
      · exact hfree b qs (by rwa [Function.update_of_ne hba]) hmem
  · intro p hp
    by_cases hpa : p = a
    · rw [hpa]
      exact hfinite a (by rw [hs]; rfl)
    · rw [Function.update_of_ne hpa] at hp
      exact hfinite p hp

theorem without_eq_some {p : Ptr} (hp : s.without freed p = some ps) :
    p ∉ freed ∧ s p = some ps := by
  rw [Shelf.without] at hp
  split at hp
  · cases hp
  · rename_i hnot
    exact ⟨hnot, hp⟩

/-- Deleting a loose item frees what is below it, and leaves the other lists. -/
theorem Holds.delete (H : Holds h s) (hx : Loose s x) (hfreed : Forest s [x] freed) :
    (∀ fuel, freed.length < fuel → deleteItem fuel h x = some (h.without freed)) ∧
      Holds (h.without freed) (s.without freed) := by
  obtain ⟨F, hfinite⟩ := H.finite
  have hnodup : freed.Nodup := by
    obtain ⟨all, hforest, hall⟩ := H.oneParent.exists_forest hfinite (List.nodup_singleton x)
      fun p hp => List.mem_singleton.1 hp ▸ hx
    exact hfreed.unique hforest ▸ hall
  have hlinked : Linked h s freed := by
    intro p hp
    refine ⟨by rw [H.live]; exact hfreed.isSome p hp, fun ps hps => ?_⟩
    have hc := H.children p ps hps
    exact ⟨hc.child, chain_of_segment hc.linked⟩
  -- what is freed stands in no list that is left
  have hleft : ∀ b qs, s.without freed b = some qs → ∀ p ∈ qs, p ∉ freed := by
    intro b qs hb p hp hmem
    obtain ⟨hbfreed, hbs⟩ := without_eq_some hb
    rcases hfreed.root_or_child p hmem with hroot | ⟨c, hc, rs, hcs, hpc⟩
    · exact hx.2 b qs hbs (List.mem_singleton.1 hroot ▸ hp)
    · exact hbfreed (H.apart b c qs rs p hbs hcs hp hpc ▸ hc)
  refine ⟨fun fuel => deleteItem_forest hfreed h fuel hnodup hlinked ⟨H.loose x hx, trivial⟩, ?_⟩
  refine ⟨?_, ?_, ?_, ?_, F, ?_⟩
  · intro p
    rw [Bool.eq_iff_iff, without_live, H.live, Shelf.without]
    split <;> simp_all
  · intro b qs hb
    obtain ⟨hbfreed, hbs⟩ := without_eq_some hb
    have hc := H.children b qs hbs
    refine ⟨live_without hc.parent_live hbfreed, hc.child, hc.linked, fun p hp => ?_, hc.nodup⟩
    exact live_without (hc.live p hp) (hleft b qs hb p hp)
  · intro b c qs rs p hb hc
    exact H.apart b c qs rs p (without_eq_some hb).2 (without_eq_some hc).2
  · rintro y ⟨hy, hfree⟩
    obtain ⟨qs, hqs⟩ := Option.isSome_iff_exists.1 hy
    obtain ⟨hyfreed, hys⟩ := without_eq_some hqs
    refine H.loose y ⟨by rw [hys]; rfl, fun b rs hb hmem => ?_⟩
    by_cases hbfreed : b ∈ freed
    · exact hyfreed (hfreed.closed b hbfreed rs hb hmem)
    · exact hfree b rs (by rw [Shelf.without, if_neg hbfreed, hb]) hmem
  · intro p hp
    obtain ⟨qs, hqs⟩ := Option.isSome_iff_exists.1 hp
    exact hfinite p (by rw [(without_eq_some hqs).2]; rfl)

theorem holds_newItem {p : Ptr} (H : Holds h s) (hp : p ≠ 0) (hs : s p = none) :
    ∃ h', newItem h p = some h' ∧ Holds h' (Function.update s p (some [])) := by
  have hdead : h.live p = false := by
    rw [H.live, hs]
    rfl
  have hnot : ∀ a ps, s a = some ps → p ∉ ps := fun a ps ha hmem => by
    have := (H.children a ps ha).live p hmem
    rw [hdead] at this
    cases this
  have hne : ∀ a ps, s a = some ps → a ≠ p := by
    rintro a ps ha rfl
    rw [hs] at ha
    cases ha
  have hget : ∀ b qs, Function.update s p (some []) b = some qs →
      b = p ∧ qs = [] ∨ s b = some qs := by
    intro b qs hb
    by_cases hbp : b = p
    · rw [hbp, Function.update_self] at hb
      exact Or.inl ⟨hbp, (Option.some.inj hb).symm⟩
    · rw [Function.update_of_ne hbp] at hb
      exact Or.inr hb
  obtain ⟨F, hfinite⟩ := H.finite
  rw [newItem, dif_pos ⟨hp, hdead⟩]
  refine ⟨_, rfl, ?_, ?_, ?_, ?_, insert p F, ?_⟩
  · intro q
    dsimp only
    by_cases hq : q = p
    · rw [hq, Function.update_self, Function.update_self]
      rfl
    · rw [Function.update_of_ne hq, Function.update_of_ne hq, H.live]
  · intro b qs hb
    rcases hget b qs hb with ⟨rfl, rfl⟩ | hbs
    · exact ⟨Function.update_self .., Function.update_self .., Segment.nil,
        fun q hq => absurd hq List.not_mem_nil, List.nodup_nil⟩
    · have hcb := H.children b qs hbs
      refine ⟨?_, ?_, ?_, ?_, hcb.nodup⟩
      · exact (Function.update_of_ne (hne b qs hbs) _ _).trans hcb.parent_live
      · exact (Function.update_of_ne (hne b qs hbs) _ _).trans hcb.child
      · exact (hcb.linked.set_next_of_notMem (hnot b qs hbs)).set_prev_of_notMem (hnot b qs hbs)
      · intro q hq
        exact (Function.update_of_ne (ne_of_mem_of_not_mem hq (hnot b qs hbs)) _ _).trans
          (hcb.live q hq)
  · intro b c qs rs q hb hc hqq hqr
    rcases hget b qs hb with ⟨rfl, rfl⟩ | hbs
    · exact absurd hqq List.not_mem_nil
    rcases hget c rs hc with ⟨rfl, rfl⟩ | hcs
    · exact absurd hqr List.not_mem_nil
    exact H.apart b c qs rs q hbs hcs hqq hqr
  · rintro y ⟨hy, hfree⟩
    dsimp only
    by_cases hyp : y = p
    · rw [hyp, Function.update_self]
    · rw [Function.update_of_ne hyp]
      rw [Function.update_of_ne hyp] at hy
      refine H.loose y ⟨hy, fun b qs hb hmem => ?_⟩
      exact hfree b qs (by rwa [Function.update_of_ne (hne b qs hb)]) hmem
  · intro q hq
    by_cases hqp : q = p
    · exact hqp ▸ Finset.mem_insert_self p F
    · rw [Function.update_of_ne hqp] at hq
      exact Finset.mem_insert_of_mem (hfinite q hq)

/-- The lists of a memory in which `r` has taken the place of `x`. -/
theorem Holds.replace {l₁ l₂ : List Ptr} {r : Ptr} (H : Holds h s)
    (hs : s a = some (l₁ ++ x :: l₂)) (hr : Loose s r) :
    ∃ h', replaceLinks h a x r = some h' ∧
      Holds h' (Function.update s a (some (l₁ ++ r :: l₂))) ∧
      Loose (Function.update s a (some (l₁ ++ r :: l₂))) x := by
  have hc := H.children a _ hs
  have hxmem : x ∈ l₁ ++ x :: l₂ := List.mem_append_right _ List.mem_cons_self
  have hrnot := hr.2 a _ hs
  obtain ⟨h', hreplace, hc', hnext, hf⟩ := replaceLinks_eq hc (H.live_of_loose hr) hrnot
  have hxnot : x ∉ l₁ ++ r :: l₂ := by
    have ha := hc.around
    rw [List.mem_append, List.mem_cons, not_or, not_or]
    exact ⟨ha.notBefore, fun he => hrnot (he ▸ hxmem), ha.notBehind⟩
  refine ⟨h', hreplace, ?_, ?_, fun b qs hb hmem => ?_⟩
  · refine H.relink hs hc' hf (fun _ hp => List.mem_cons_of_mem r hp) ?_ ?_ ?_
    · intro p hp
      rcases List.mem_append.1 hp with hp | hp
      · exact List.mem_cons_of_mem r (List.mem_append_left _ hp)
      rcases List.mem_cons.1 hp with rfl | hp
      · exact List.mem_cons_self
      · exact List.mem_cons_of_mem r (List.mem_append_right _ (List.mem_cons_of_mem x hp))
    · intro p hp
      rcases List.mem_cons.1 hp with rfl | hp
      · exact Or.inr hr
      · exact Or.inl hp
    · intro p hp hn
      rcases List.mem_cons.1 hp with rfl | hp
      · exact absurd (List.mem_append_right _ List.mem_cons_self) hn
      rcases List.mem_append.1 hp with hp | hp
      · exact absurd (List.mem_append_left _ hp) hn
      rcases List.mem_cons.1 hp with rfl | hp
      · exact hnext
      · exact absurd (List.mem_append_right _ (List.mem_cons_of_mem r hp)) hn
  · by_cases hxa : x = a
    · rw [hxa, Function.update_self]
      rfl
    · rw [Function.update_of_ne hxa]
      exact H.oneParent.known a _ hs x hxmem
  · by_cases hba : b = a
    · rw [hba, Function.update_self] at hb
      obtain rfl := Option.some.inj hb
      exact hxnot hmem
    · rw [Function.update_of_ne hba] at hb
      exact hba (H.apart b a qs _ x hb hs hmem hxmem)

/-- Every call does to the links what it does to the lists. -/
theorem holds_call {call : Call} (H : Holds h s) (hmove : Moves s call s') :
    ∃ h', Executes h call h' ∧ Holds h' s' := by
  cases hmove with
  | newItem hp hs => exact holds_newItem H hp hs
  | @addItem a x ps hs hx hne =>
    obtain ⟨h', hadd, hc', hf⟩ := addItemToArray_eq (H.children a ps hs) (H.live_of_loose hx) hne
      (hx.2 a ps hs) (H.loose x hx)
    refine ⟨h', hadd, H.relink hs hc' hf ?_ (fun _ hp => hp) ?_ fun _ hp hn => absurd hp hn⟩
    · exact fun p hp => List.mem_append_left _ hp
    · intro p hp
      rcases List.mem_append.1 hp with hp | hp
      · exact Or.inl hp
      · exact Or.inr (List.mem_singleton.1 hp ▸ hx)
  | @insertItem a x which ps hs hx hne =>
    obtain ⟨h', hinsert, hc', hf⟩ := insertItemInArray_eq which (H.children a ps hs)
      (H.live_of_loose hx) hne (hx.2 a ps hs) (H.loose x hx)
    have hmem : ∀ p, p ∈ ps.take which ++ x :: ps.drop which ↔ p = x ∨ p ∈ ps := by
      intro p
      rw [List.mem_append, List.mem_cons, or_left_comm, ← List.mem_append, List.take_append_drop]
    refine ⟨h', hinsert, H.relink hs hc' hf ?_ (fun _ hp => hp) ?_ fun _ hp hn => absurd hp hn⟩
    · exact fun p hp => (hmem p).2 (Or.inr hp)
    · intro p hp
      rcases (hmem p).1 hp with rfl | hp
      · exact Or.inr hx
      · exact Or.inl hp
  | @detachItem a x l₁ l₂ hs =>
    obtain ⟨h', hdetach, hc', hnext, hf⟩ := detachItemViaPointer_eq (H.children a _ hs)
    refine ⟨h', hdetach, H.relink hs hc' hf (fun _ hp => hp) ?_ (fun _ hp => Or.inl hp) ?_⟩
    · intro p hp
      rcases List.mem_append.1 hp with hp | hp
      · exact List.mem_append_left _ hp
      · exact List.mem_append_right _ (List.mem_cons_of_mem x hp)
    · intro p hp hn
      rcases List.mem_append.1 hp with hp | hp
      · exact absurd (List.mem_append_left _ hp) hn
      rcases List.mem_cons.1 hp with rfl | hp
      · exact hnext
      · exact absurd (List.mem_append_right _ hp) hn
  | @replaceItem a x r l₁ l₂ freed hs hr hfreed =>
    have hxmem : x ∈ l₁ ++ x :: l₂ := List.mem_append_right _ List.mem_cons_self
    have hnull : ¬ (a = 0 ∨ r = 0 ∨ x = 0) := by
      rintro (ha | hr0 | hx0)
      · exact ne_null (H.children a _ hs).parent_live ha
      · exact ne_null (H.live_of_loose hr) hr0
      · exact (H.children a _ hs).ne_null hxmem hx0
    have hne : r ≠ x := fun he => hr.2 a _ hs (he ▸ hxmem)
    obtain ⟨h₁, hreplace, H₁, hx⟩ := H.replace hs hr
    obtain ⟨hdelete, H₂⟩ := H₁.delete hx hfreed
    refine ⟨_, ⟨freed.length + 1, fun fuel hfuel => ?_⟩, H₂⟩
    rw [replaceItemViaPointer, if_neg hnull, if_neg hne, hreplace,
      Option.bind_eq_bind, Option.bind_some, hdelete fuel hfuel]
    rfl

theorem holds_empty : Holds Memory.empty fun _ => none where
  live _ := rfl
  children _ _ h := by cases h
  apart _ _ _ _ _ h := by cases h
  loose _ h := by cases h.1
  finite := ⟨∅, fun _ h => by cases h⟩

/-- What is below an item that is replaced can always be freed. -/
theorem Holds.exists_replace {l₁ l₂ : List Ptr} {r : Ptr} (H : Holds h s)
    (hs : s a = some (l₁ ++ x :: l₂)) (hr : Loose s r) : ∃ s', Moves s (.replaceItem a x r) s' := by
  obtain ⟨h', -, H', hx⟩ := H.replace hs hr
  obtain ⟨F, hfinite⟩ := H'.finite
  obtain ⟨freed, hfreed, -⟩ := H'.oneParent.exists_forest hfinite (List.nodup_singleton x)
    fun p hp => List.mem_singleton.1 hp ▸ hx
  exact ⟨_, .replaceItem hs hr hfreed⟩

/-- Whatever is done to the lists from the start can be done to the links, which then hold the
lists: no call follows `NULL` or a pointer to nothing, and the items are found by their index. Any
item of a list can be replaced by a loose one. -/
theorem calls_executed {calls : List Call} (run : Run Moves (fun _ => none) calls s) :
    (∃ h, Run Executes Memory.empty calls h ∧ Holds h s ∧
      ∀ a ps, s a = some ps → ∀ index,
        getArrayItem h (h.child a) index = some (ps[index]?.getD 0)) ∧
    ∀ a x r l₁ l₂, s a = some (l₁ ++ x :: l₂) → Loose s r →
      ∃ s', Moves s (.replaceItem a x r) s' := by
  have hsim : Run.Simulates Moves Executes some fun s h => Holds h s :=
    fun s call s' h H hmove => holds_call H hmove
  obtain ⟨h, hrun, H⟩ := run.simulate hsim holds_empty
  rw [List.filterMap_some] at hrun
  refine ⟨⟨h, hrun, H, fun a ps hs index => ?_⟩, fun a x r l₁ l₂ => H.exists_replace⟩
  have hc := H.children a ps hs
  rw [hc.child]
  exact getArrayItem_eq hc.live hc.linked index

/-- Only the items up to 5 have lists. -/
def UpToFive (s : Shelf) : Prop := ∀ p : Nat, 5 < p → s p = none

theorem UpToFive.update {p : Nat} (h : UpToFive s) (hp : p ≤ 5) :
    UpToFive (Function.update s p (some ps)) := by
  intro q hq
  rw [Function.update_of_ne (Nat.ne_of_gt (Nat.lt_of_le_of_lt hp hq))]
  exact h q hq

theorem UpToFive.without (h : UpToFive s) : UpToFive (s.without freed) := by
  intro q hq
  rw [Shelf.without, h q hq, ite_self]

theorem UpToFive.loose (h : UpToFive s) (hx : (s x).isSome)
    (hnot : ∀ a : Nat, a < 6 → x ∉ (s a).getD []) : Loose s x := by
  refine ⟨hx, fun a ps ha hmem => ?_⟩
  rcases Nat.lt_or_ge 5 a with hlarge | hsmall
  · rw [h a hlarge] at ha
    cases ha
  · refine hnot a (Nat.lt_succ_of_le hsmall) ?_
    rwa [ha]

/-- Items 2 and 3 come under item 1 and item 4 under item 2. Item 5 replaces item 2, with which
item 4 goes. A new item at the address of item 4 comes under item 1, and item 3 is taken out. -/
def sampleCalls : List Call :=
  [.newItem 1, .newItem 2, .addItem 1 2, .newItem 3, .insertItem 1 0 3, .newItem 4, .addItem 2 4,
    .newItem 5, .replaceItem 1 2 5, .newItem 4, .addItem 1 4, .detachItem 1 3]

theorem sampleCalls_run : ∃ s, Run Moves (fun _ => none) sampleCalls s ∧ s 1 = some [5, 4] := by
  have hnone : UpToFive fun _ => none := fun _ _ => rfl
  have hfreed {s : Shelf} (h₂ : s 2 = some [4]) (h₄ : s 4 = some []) : Forest s [2] [2, 4] :=
    @Forest.cons _ _ 2 [4] [] [4] [] h₂ (@Forest.cons _ _ 4 [] [] [] [] h₄ .nil .nil) .nil
  refine ⟨_, (((((((((((((.nil : Run Moves (fun _ => none) [] _).snoc
    (.newItem (p := 1) (by decide) rfl)).snoc
    (.newItem (p := 2) (by decide) rfl)).snoc
    (.addItem (a := 1) (x := 2) rfl (UpToFive.loose ?_ rfl (by decide)) (by decide))).snoc
    (.newItem (p := 3) (by decide) rfl)).snoc
    (@Moves.insertItem _ 1 3 0 _ rfl (UpToFive.loose ?_ rfl (by decide)) (by decide))).snoc
    (.newItem (p := 4) (by decide) rfl)).snoc
    (.addItem (a := 2) (x := 4) rfl (UpToFive.loose ?_ rfl (by decide)) (by decide))).snoc
    (.newItem (p := 5) (by decide) rfl)).snoc
    (@Moves.replaceItem _ 1 2 5 [3] [] [2, 4] rfl (UpToFive.loose ?_ rfl (by decide))
      (hfreed rfl rfl))).snoc
    (.newItem (p := 4) (by decide) rfl)).snoc
    (.addItem (a := 1) (x := 4) rfl (UpToFive.loose ?_ rfl (by decide)) (by decide))).snoc
    (@Moves.detachItem _ 1 3 [] [5, 4] rfl)), rfl⟩
  all_goals
    repeat first
      | exact hnone
      | refine UpToFive.update ?_ (by decide)
      | refine UpToFive.without ?_

/-- Two items are left under item 1. -/
theorem calls_executed_sample : ∃ h, Run Executes Memory.empty sampleCalls h ∧
    getArrayItem h (h.child 1) 0 = some 5 ∧ getArrayItem h (h.child 1) 1 = some 4 := by
  obtain ⟨s, run, hs⟩ := sampleCalls_run
  obtain ⟨⟨h, hrun, -, hfound⟩, -⟩ := calls_executed run
  exact ⟨h, hrun, hfound 1 _ hs 0, hfound 1 _ hs 1⟩

end Siblings
end CFunction
