import CFunction.Json.Siblings
import CFunction.Misc.Segment

/-!
# What the list functions do to the links

The children of an item are a segment that ends in `NULL` and whose first node knows the last
one. Each function of the source relinks the nodes around one place, and leaves a list of the same
kind.
-/

namespace CFunction
namespace Siblings

variable {h h' : Memory} {parent item p x : Ptr} {ps l₁ l₂ : List Ptr}

/-- The children of an item, in their order. -/
structure Children (h : Memory) (parent : Ptr) (ps : List Ptr) : Prop where
  parent_live : h.live parent
  child : h.child parent = ps.headD 0
  linked : Segment h.next h.prev (ps.getLastD 0) ps 0
  live : ∀ p ∈ ps, h.live p
  nodup : ps.Nodup

/-- What relinking the children `ps` of one item leaves as it is. -/
structure Frame (h h' : Memory) (parent : Ptr) (ps : List Ptr) : Prop where
  live : h'.live = h.live
  string : h'.string = h.string
  child : ∀ p, p ≠ parent → h'.child p = h.child p
  next : ∀ p ∉ ps, h'.next p = h.next p
  prev : ∀ p ∉ ps, h'.prev p = h.prev p

theorem ne_null (hp : h.live p) : p ≠ 0 := by
  rintro rfl
  rw [h.null] at hp
  cases hp

theorem Children.ne_null (hc : Children h parent ps) (hp : p ∈ ps) : p ≠ 0 :=
  Siblings.ne_null (hc.live p hp)

theorem getLastD_concat (ps : List Ptr) (x : Ptr) : (ps ++ [x]).getLastD 0 = x := by simp

theorem getLastD_append_cons (l₁ : List Ptr) (x : Ptr) (l₂ : List Ptr) :
    (l₁ ++ x :: l₂).getLastD 0 = l₂.getLastD x := by
  induction l₂ generalizing l₁ x with
  | nil => exact getLastD_concat l₁ x
  | cons y l₂ ih =>
    have := ih (l₁ ++ [x]) y
    rw [List.append_assoc, List.singleton_append] at this
    rw [this]
    cases l₂ with
    | nil => rfl
    | cons z l₂ => rfl

/-! ### Looking up -/

theorem getArrayItem_eq (hlive : ∀ p ∈ ps, h.live p) {a : Ptr}
    (hlinked : Segment h.next h.prev a ps 0) (index : Nat) :
    getArrayItem h (ps.headD 0) index = some (ps[index]?.getD 0) := by
  induction index generalizing a ps with
  | zero =>
    rw [getArrayItem]
    cases ps with
    | nil => rfl
    | cons p ps => rfl
  | succ index ih =>
    cases ps with
    | nil => rw [List.headD_nil, getArrayItem, if_pos rfl, List.getElem?_nil, Option.getD_none]
    | cons p ps =>
      have hp := hlive p List.mem_cons_self
      rw [List.headD_cons, getArrayItem, if_neg (Siblings.ne_null hp), getNext, if_pos hp,
        hlinked.2.1, List.getElem?_cons_succ]
      exact ih (fun q hq => hlive q (List.mem_cons_of_mem p hq)) hlinked.2.2

/-! ### Appending -/

theorem addItemToArray_empty (hc : Children h parent []) (hx : h.live x) (hne : parent ≠ x) :
    ∃ h', addItemToArray h parent x = some (h', true) ∧ Children h' parent [x] ∧
      Frame h h' parent [x] := by
  have hparent := ne_null hc.parent_live
  have hx0 := ne_null hx
  refine ⟨{ h with
    child := Function.update h.child parent x
    prev := Function.update h.prev x x
    next := Function.update h.next x 0 }, ?_, ⟨hc.parent_live, ?_, ?_, ?_, ?_⟩,
      ⟨rfl, rfl, ?_, ?_, ?_⟩⟩
  · rw [addItemToArray, if_neg (by tauto), getChild, if_pos hc.parent_live]
    simp [hc.child, setChild, hc.parent_live, setPrev, setNext, hx]
  · exact Function.update_self ..
  · exact Segment.singleton_iff.2 ⟨Function.update_self .., Function.update_self ..⟩
  · intro p hp
    rw [List.mem_singleton.1 hp]
    exact hx
  · exact List.nodup_cons.2 ⟨List.not_mem_nil, List.nodup_nil⟩
  · exact fun p hp => Function.update_of_ne hp _ _
  · exact fun p hp => Function.update_of_ne (List.ne_of_not_mem_cons hp) _ _
  · exact fun p hp => Function.update_of_ne (List.ne_of_not_mem_cons hp) _ _

/-- The new item goes behind the one that the first child takes for the last. -/
theorem addItemToArray_known {b : Ptr} (hparent : h.live parent) (hps : ps ≠ [])
    (hchild : h.child parent = ps.headD 0) (hlinked : Segment h.next h.prev (ps.getLastD 0) ps b)
    (hlive : ∀ p ∈ ps, h.live p) (hnodup : ps.Nodup) (hx : h.live x) (hne : parent ≠ x)
    (hfresh : x ∉ ps) (hloose : h.next x = 0) :
    ∃ h', addItemToArray h parent x = some (h', true) ∧ Children h' parent (ps ++ [x]) ∧
      Frame h h' parent (ps ++ [x]) := by
  obtain ⟨first, tail, hcons⟩ := List.exists_cons_of_ne_nil hps
  obtain ⟨init, last, hconcat⟩ : ∃ init last, ps = init ++ [last] :=
    ⟨_, _, (List.dropLast_append_getLast hps).symm⟩
  have hparent0 := ne_null hparent
  have hx0 := ne_null hx
  have hfirst : first ∈ ps := hcons ▸ List.mem_cons_self
  have hlast : last ∈ ps := hconcat ▸ List.mem_append_right _ List.mem_cons_self
  have hlastD : ∀ a, ps.getLastD a = last := by
    intro a
    rw [hconcat]
    simp
  have hprev : h.prev first = last := by
    rw [hlastD, hcons] at hlinked
    exact hlinked.1
  have hnotInit : last ∉ init := by
    rw [hconcat] at hnodup
    exact fun hmem => (List.nodup_append.1 hnodup).2.2 last hmem last List.mem_cons_self rfl
  have hnotTail : first ∉ tail := by
    rw [hcons] at hnodup
    exact (List.nodup_cons.1 hnodup).1
  have hlastx : last ≠ x := ne_of_mem_of_not_mem hlast hfresh
  have hfirstx : first ≠ x := ne_of_mem_of_not_mem hfirst hfresh
  refine ⟨{ h with
    next := Function.update h.next last x
    prev := Function.update (Function.update h.prev x last) first x }, ?_,
    ⟨hparent, ?_, ?_, ?_, ?_⟩, ⟨rfl, rfl, fun _ _ => rfl, ?_, ?_⟩⟩
  · rw [hcons, List.headD_cons] at hchild
    rw [addItemToArray, if_neg (by tauto), getChild, if_pos hparent]
    simp [hchild, getPrev, suffixObject, setPrev, setNext, hx, hlive first hfirst,
      hlive last hlast, hprev, ne_null (hlive first hfirst), ne_null (hlive last hlast)]
  · rw [hcons] at hchild ⊢
    exact hchild
  · rw [getLastD_concat, Segment.around_iff, hlastD]
    refine ⟨?_, ?_, ?_, Segment.nil⟩
    · rw [hlastD, hconcat] at hlinked
      have hnext := hlinked.set_next_last (v := x) hnotInit
      rw [← hconcat] at hnext
      have hprevx := hnext.set_prev_of_notMem (v := last) hfresh
      rw [hcons] at hprevx ⊢
      exact hprevx.set_prev_head hnotTail
    · exact (Function.update_of_ne hfirstx.symm _ _).trans (Function.update_self ..)
    · exact (Function.update_of_ne hlastx.symm _ _).trans hloose
  · intro p hp
    rcases List.mem_append.1 hp with hp | hp
    · exact hlive p hp
    · rwa [List.mem_singleton.1 hp]
  · exact List.nodup_append.2 ⟨hnodup, List.nodup_cons.2 ⟨List.not_mem_nil, List.nodup_nil⟩,
      fun a ha b hb he => hfresh (List.mem_singleton.1 hb ▸ he ▸ ha)⟩
  · intro p hp
    exact Function.update_of_ne (ne_of_mem_of_not_mem (List.mem_append_left _ hlast) hp).symm _ _
  · intro p hp
    have hpfirst := (ne_of_mem_of_not_mem (List.mem_append_left [x] hfirst) hp).symm
    have hpx := (ne_of_mem_of_not_mem (List.mem_append_right ps (List.mem_singleton_self x))
      hp).symm
    exact (Function.update_of_ne hpfirst _ _).trans (Function.update_of_ne hpx _ _)

theorem addItemToArray_eq (hc : Children h parent ps) (hx : h.live x) (hne : parent ≠ x)
    (hfresh : x ∉ ps) (hloose : h.next x = 0) :
    ∃ h', addItemToArray h parent x = some (h', true) ∧ Children h' parent (ps ++ [x]) ∧
      Frame h h' parent (ps ++ [x]) := by
  cases ps with
  | nil => exact addItemToArray_empty hc hx hne
  | cons p ps =>
    exact addItemToArray_known hc.parent_live (List.cons_ne_nil p ps) hc.child hc.linked hc.live
      hc.nodup hx hne hfresh hloose

/-! ### Taking out -/

/-- The links of a child `x`, with the children around it. -/
structure Around (h : Memory) (parent : Ptr) (l₁ : List Ptr) (x : Ptr) (l₂ : List Ptr) : Prop where
  child : h.child parent = l₁.headD x
  before : Segment h.next h.prev (l₂.getLastD x) l₁ x
  prev : h.prev x = l₁.getLastD (l₂.getLastD x)
  next : h.next x = l₂.headD 0
  behind : Segment h.next h.prev x l₂ 0
  notBefore : x ∉ l₁
  notBehind : x ∉ l₂
  disjoint : ∀ p ∈ l₁, p ∉ l₂

theorem Children.around (hc : Children h parent (l₁ ++ x :: l₂)) : Around h parent l₁ x l₂ := by
  have hlinked := hc.linked
  rw [getLastD_append_cons, Segment.around_iff] at hlinked
  obtain ⟨hbefore, hprev, hnext, hbehind⟩ := hlinked
  obtain ⟨-, hcons, hdisjoint⟩ := List.nodup_append.1 hc.nodup
  refine ⟨?_, hbefore, hprev, hnext, hbehind, ?_, (List.nodup_cons.1 hcons).1, ?_⟩
  · rw [hc.child]
    cases l₁ with
    | nil => rfl
    | cons p l₁ => rfl
  · exact fun hmem => hdisjoint x hmem x List.mem_cons_self rfl
  · exact fun p hp hp' => hdisjoint p hp p (List.mem_cons_of_mem x hp') rfl

theorem nodup_remove (hn : (l₁ ++ x :: l₂).Nodup) : (l₁ ++ l₂).Nodup := by
  have hsub : (l₁ ++ l₂).Sublist (l₁ ++ x :: l₂) :=
    List.Sublist.append_left (List.sublist_cons_self x l₂) l₁
  exact List.Nodup.sublist hsub hn

/-- The first child is taken out: the second one becomes the first and gets to know the last. -/
theorem detach_first (hc : Children h parent (x :: l₂)) :
    ∃ h', detachItemViaPointer h parent x = some (h', x) ∧ Children h' parent l₂ ∧
      h'.next x = 0 ∧ Frame h h' parent (x :: l₂) := by
  have hsplit : Children h parent ([] ++ x :: l₂) := hc
  have ha : Around h parent [] x l₂ := hsplit.around
  have hparent := ne_null hc.parent_live
  have hx := hc.live x List.mem_cons_self
  have hx0 := ne_null hx
  have hchild : h.child parent = x := ha.child
  have hprev : h.prev x = l₂.getLastD x := ha.prev
  cases l₂ with
  | nil =>
    refine ⟨{ h with
      child := Function.update h.child parent 0
      prev := Function.update h.prev x 0
      next := Function.update h.next x 0 }, ?_,
        ⟨hc.parent_live, ?_, Segment.nil, ?_, List.nodup_nil⟩,
      Function.update_self .., ⟨rfl, rfl, ?_, ?_, ?_⟩⟩
    · have hnext : h.next x = 0 := ha.next
      rw [detachItemViaPointer, if_neg (by tauto), getChild, if_pos hc.parent_live, hchild]
      simp [getNext, hx, hnext, setChild, hc.parent_live, setPrev, setNext]
    · exact Function.update_self ..
    · exact fun p hp => absurd hp List.not_mem_nil
    · exact fun p hp => Function.update_of_ne hp _ _
    · exact fun p hp => Function.update_of_ne (List.ne_of_not_mem_cons hp) _ _
    · exact fun p hp => Function.update_of_ne (List.ne_of_not_mem_cons hp) _ _
  | cons z m =>
    have hz := hc.live z (List.mem_cons_of_mem x List.mem_cons_self)
    have hnext : h.next x = z := ha.next
    have hxz : x ≠ z := fun he => ha.notBehind (he ▸ List.mem_cons_self)
    have hzm : z ∉ m := (List.nodup_cons.1 (List.nodup_cons.1 hc.nodup).2).1
    refine ⟨{ h with
      child := Function.update h.child parent z
      prev := Function.update (Function.update h.prev z ((z :: m).getLastD x)) x 0
      next := Function.update h.next x 0 }, ?_, ⟨hc.parent_live, ?_, ?_, ?_, ?_⟩,
      Function.update_self .., ⟨rfl, rfl, ?_, ?_, ?_⟩⟩
    · rw [detachItemViaPointer, if_neg (by tauto), getChild, if_pos hc.parent_live, hchild]
      simp [getNext, hx, hnext, setChild, hc.parent_live, setPrev, setNext, getPrev, hprev, hz,
        ne_null hz]
    · exact Function.update_self ..
    · have hlast : (z :: m).getLastD 0 = (z :: m).getLastD x := by
        cases m with
        | nil => rfl
        | cons y m => rfl
      rw [hlast]
      exact ((ha.behind.set_prev_head hzm).set_prev_of_notMem ha.notBehind).set_next_of_notMem
        ha.notBehind
    · exact fun p hp => hc.live p (List.mem_cons_of_mem x hp)
    · exact (List.nodup_cons.1 hc.nodup).2
    · exact fun p hp => Function.update_of_ne hp _ _
    · exact fun p hp => Function.update_of_ne (List.ne_of_not_mem_cons hp) _ _
    · intro p hp
      have hpz := List.ne_of_not_mem_cons (List.not_mem_of_not_mem_cons hp)
      exact (Function.update_of_ne (List.ne_of_not_mem_cons hp) _ _).trans
        (Function.update_of_ne hpz _ _)

/-- A later child is taken out: the one in front of it and the one behind it become neighbours,
and the first child gets to know a new last one. -/
theorem detach_later {y : Ptr} (hc : Children h parent ((l₁ ++ [y]) ++ x :: l₂)) :
    ∃ h', detachItemViaPointer h parent x = some (h', x) ∧
      Children h' parent ((l₁ ++ [y]) ++ l₂) ∧ h'.next x = 0 ∧
      Frame h h' parent ((l₁ ++ [y]) ++ x :: l₂) := by
  have ha := hc.around
  have hparent := ne_null hc.parent_live
  have hmem : ∀ p ∈ l₁ ++ [y], h.live p := fun p hp => hc.live p (List.mem_append_left _ hp)
  have hx := hc.live x (List.mem_append_right _ List.mem_cons_self)
  have hx0 := ne_null hx
  have hylast : y ∈ l₁ ++ [y] := List.mem_append_right _ List.mem_cons_self
  have hy := hmem y hylast
  have hxy : x ≠ y := fun he => ha.notBefore (he ▸ hylast)
  have hprev : h.prev x = y := by
    rw [ha.prev]
    simp
  obtain ⟨first, tail, hcons⟩ := List.exists_cons_of_ne_nil (List.append_ne_nil_of_right_ne_nil l₁
    (List.cons_ne_nil y []))
  have hfirst : first ∈ l₁ ++ [y] := hcons ▸ List.mem_cons_self
  have hxfirst : x ≠ first := fun he => ha.notBefore (he ▸ hfirst)
  have hchild : h.child parent = first := by
    rw [ha.child, hcons]
    rfl
  have hnodup := (List.nodup_append.1 hc.nodup).1
  have hyl₁ : y ∉ l₁ := fun hp =>
    (List.nodup_append.1 hnodup).2.2 y hp y List.mem_cons_self rfl
  have hfirsttail : first ∉ tail := by
    rw [hcons] at hnodup
    exact (List.nodup_cons.1 hnodup).1
  have hlive : ∀ p ∈ (l₁ ++ [y]) ++ l₂, h.live p := by
    intro p hp
    rcases List.mem_append.1 hp with hp | hp
    · exact hmem p hp
    · exact hc.live p (List.mem_append_right _ (List.mem_cons_of_mem x hp))
  have hframe : ∀ p, p ∉ (l₁ ++ [y]) ++ x :: l₂ → p ≠ x ∧ p ≠ y ∧ p ≠ first ∧ p ∉ l₂ := by
    intro p hp
    simp only [List.mem_append, not_or] at hp
    refine ⟨List.ne_of_not_mem_cons hp.2, List.ne_of_not_mem_cons hp.1.2, fun he => ?_,
      List.not_mem_of_not_mem_cons hp.2⟩
    rw [he] at hp
    exact (not_or.2 hp.1) (List.mem_append.1 hfirst)
  cases l₂ with
  | nil =>
    have hnext : h.next x = 0 := ha.next
    have hbefore : Segment h.next h.prev x (l₁ ++ [y]) x := ha.before
    refine ⟨{ h with
      prev := Function.update (Function.update h.prev first y) x 0
      next := Function.update (Function.update h.next y 0) x 0 }, ?_,
      ⟨hc.parent_live, ?_, ?_, hlive, nodup_remove hc.nodup⟩, Function.update_self ..,
      ⟨rfl, rfl, fun _ _ => rfl, ?_, ?_⟩⟩
    · rw [detachItemViaPointer, if_neg (by tauto), getChild, if_pos hc.parent_live, hchild]
      simp [getNext, hx, hxfirst, hxy, hnext, setPrev, setNext, getPrev, hprev, hy,
        hmem first hfirst]
    · rw [List.append_nil, hcons]
      exact hchild
    · rw [List.append_nil, getLastD_concat]
      have hnew := hbefore.set_next_last (v := 0) hyl₁
      rw [hcons] at hnew ha ⊢
      have hx' : x ∉ first :: tail := ha.notBefore
      exact ((hnew.set_prev_head hfirsttail).set_prev_of_notMem hx').set_next_of_notMem hx'
    · intro p hp
      obtain ⟨hpx, hpy, -, -⟩ := hframe p hp
      exact (Function.update_of_ne hpx _ _).trans (Function.update_of_ne hpy _ _)
    · intro p hp
      obtain ⟨hpx, -, hpf, -⟩ := hframe p hp
      exact (Function.update_of_ne hpx _ _).trans (Function.update_of_ne hpf _ _)
  | cons z m =>
    have hnext : h.next x = z := ha.next
    have hz := hc.live z (List.mem_append_right _ (List.mem_cons_of_mem x List.mem_cons_self))
    have hxz : x ≠ z := fun he => ha.notBehind (he ▸ List.mem_cons_self)
    have hyzm : y ∉ z :: m := ha.disjoint y hylast
    have hzl₁ : z ∉ l₁ ++ [y] := fun hp => ha.disjoint z hp List.mem_cons_self
    have hzm : z ∉ m := by
      have := (List.nodup_append.1 hc.nodup).2.1
      exact (List.nodup_cons.1 (List.nodup_cons.1 this).2).1
    refine ⟨{ h with
      prev := Function.update (Function.update h.prev z y) x 0
      next := Function.update (Function.update h.next y z) x 0 }, ?_,
      ⟨hc.parent_live, ?_, ?_, hlive, nodup_remove hc.nodup⟩, Function.update_self ..,
      ⟨rfl, rfl, fun _ _ => rfl, ?_, ?_⟩⟩
    · rw [detachItemViaPointer, if_neg (by tauto), getChild, if_pos hc.parent_live, hchild]
      simp [getNext, hx, hxfirst, hxy, hnext, setPrev, setNext, getPrev, hprev, hy, hz, ne_null hz]
    · rw [hcons]
      exact hchild
    · rw [getLastD_append_cons, Segment.append_iff, List.headD_cons]
      have hlast : (z :: m).getLastD x = m.getLastD z := by
        cases m with
        | nil => rfl
        | cons w m => rfl
      have hyD : (l₁ ++ [y]).getLastD (m.getLastD z) = y := by simp
      have hbefore := ha.before
      rw [hlast] at hbefore
      rw [hyD]
      refine ⟨?_, ?_⟩
      · exact (((hbefore.set_next_last (v := z) hyl₁).set_next_of_notMem
          ha.notBefore).set_prev_of_notMem hzl₁).set_prev_of_notMem ha.notBefore
      · exact (((ha.behind.set_prev_head (v := y) hzm).set_prev_of_notMem
          ha.notBehind).set_next_of_notMem hyzm).set_next_of_notMem ha.notBehind
    · intro p hp
      obtain ⟨hpx, hpy, -, -⟩ := hframe p hp
      exact (Function.update_of_ne hpx _ _).trans (Function.update_of_ne hpy _ _)
    · intro p hp
      obtain ⟨hpx, -, -, hp₂⟩ := hframe p hp
      exact (Function.update_of_ne hpx _ _).trans
        (Function.update_of_ne (List.ne_of_not_mem_cons hp₂) _ _)

theorem detachItemViaPointer_eq (hc : Children h parent (l₁ ++ x :: l₂)) :
    ∃ h', detachItemViaPointer h parent x = some (h', x) ∧ Children h' parent (l₁ ++ l₂) ∧
      h'.next x = 0 ∧ Frame h h' parent (l₁ ++ x :: l₂) := by
  rcases List.eq_nil_or_concat' l₁ with rfl | ⟨k, y, rfl⟩
  · exact detach_first hc
  · exact detach_later hc

/-! ### Inserting -/

theorem nodup_insert (hn : (l₁ ++ l₂).Nodup) (h₁ : x ∉ l₁) (h₂ : x ∉ l₂) :
    (l₁ ++ x :: l₂).Nodup := by
  have hperm : (l₁ ++ x :: l₂).Perm (x :: (l₁ ++ l₂)) := List.perm_middle
  rw [hperm.nodup_iff]
  exact List.nodup_cons.2 ⟨fun hx => (List.mem_append.1 hx).elim h₁ h₂, hn⟩

/-- A new item in front of the child `z`. -/
theorem insertItemInArray_before {z : Ptr} {which : Nat} (hc : Children h parent (l₁ ++ z :: l₂))
    (hwhich : l₁.length = which) (hx : h.live x) (hfresh : x ∉ l₁ ++ z :: l₂) :
    ∃ h', insertItemInArray h parent which x = some (h', true) ∧
      Children h' parent (l₁ ++ x :: z :: l₂) ∧ Frame h h' parent (l₁ ++ x :: z :: l₂) := by
  have ha := hc.around
  have hz := hc.live z (List.mem_append_right _ List.mem_cons_self)
  have hfound : getArrayItem h (h.child parent) which = some z := by
    rw [hc.child, getArrayItem_eq hc.live hc.linked]
    simp [← hwhich]
  have hx₁ : x ∉ l₁ := fun hp => hfresh (List.mem_append_left _ hp)
  have hx₂ : x ∉ z :: l₂ := fun hp => hfresh (List.mem_append_right _ hp)
  have hxz : x ≠ z := List.ne_of_not_mem_cons hx₂
  have hxl₂ := List.not_mem_of_not_mem_cons hx₂
  have hnodup := nodup_insert hc.nodup hx₁ hx₂
  have hlive : ∀ p ∈ l₁ ++ x :: z :: l₂, h.live p := by
    intro p hp
    rcases List.mem_append.1 hp with hp | hp
    · exact hc.live p (List.mem_append_left _ hp)
    rcases List.mem_cons.1 hp with rfl | hp
    · exact hx
    · exact hc.live p (List.mem_append_right _ hp)
  have hlast : (z :: l₂).getLastD x = l₂.getLastD z := by
    cases l₂ with
    | nil => rfl
    | cons w m => rfl
  rcases List.eq_nil_or_concat' l₁ with rfl | ⟨k, y, rfl⟩
  · have hchild : h.child parent = z := ha.child
    have hprev : h.prev z = l₂.getLastD z := ha.prev
    refine ⟨{ h with
      next := Function.update h.next x z
      prev := Function.update (Function.update h.prev x (l₂.getLastD z)) z x
      child := Function.update h.child parent x }, ?_, ⟨hc.parent_live, ?_, ?_, hlive, hnodup⟩,
      ⟨rfl, rfl, ?_, ?_, ?_⟩⟩
    · rw [insertItemInArray, if_neg (by omega), getChild, if_pos hc.parent_live,
        Option.bind_eq_bind, Option.bind_some, Int.toNat_natCast, hfound]
      simp [hchild, ne_null hz, setNext, getPrev, setPrev, setChild, hx, hz, hc.parent_live, hprev]
    · exact Function.update_self ..
    · refine ⟨?_, Function.update_self .., ?_⟩
      · rw [List.nil_append, ← List.nil_append (x :: z :: l₂), getLastD_append_cons, hlast]
        exact (Function.update_of_ne hxz _ _).trans (Function.update_self ..)
      · refine ⟨Function.update_self .., ?_, ?_⟩
        · exact (Function.update_of_ne hxz.symm _ _).trans ha.next
        · exact ((ha.behind.set_prev_of_notMem hxl₂).set_prev_of_notMem
            ha.notBehind).set_next_of_notMem hxl₂
    · exact fun p hp => Function.update_of_ne hp _ _
    · exact fun p hp => Function.update_of_ne (List.ne_of_not_mem_cons hp) _ _
    · intro p hp
      have hpz := List.ne_of_not_mem_cons (List.not_mem_of_not_mem_cons hp)
      exact (Function.update_of_ne hpz _ _).trans
        (Function.update_of_ne (List.ne_of_not_mem_cons hp) _ _)
  · have hylast : y ∈ k ++ [y] := List.mem_append_right _ List.mem_cons_self
    have hy := hc.live y (List.mem_append_left _ hylast)
    have hyz : y ≠ z := fun he => ha.notBefore (he ▸ hylast)
    have hxy : x ≠ y := fun he => hx₁ (he ▸ hylast)
    have hyl₂ := ha.disjoint y hylast
    have hyk : y ∉ k := fun hp =>
      (List.nodup_append.1 (List.nodup_append.1 hc.nodup).1).2.2 y hp y List.mem_cons_self rfl
    have hprev : h.prev z = y := by
      rw [ha.prev]
      simp
    have hchild : z ≠ h.child parent := by
      rw [ha.child]
      intro he
      apply ha.notBefore
      rw [he]
      cases k with
      | nil => exact List.mem_cons_self
      | cons w k => exact List.mem_cons_self
    refine ⟨{ h with
      next := Function.update (Function.update h.next x z) y x
      prev := Function.update (Function.update h.prev x y) z x }, ?_,
      ⟨hc.parent_live, ?_, ?_, hlive, hnodup⟩, ⟨rfl, rfl, fun _ _ => rfl, ?_, ?_⟩⟩
    · rw [insertItemInArray, if_neg (by omega), getChild, if_pos hc.parent_live,
        Option.bind_eq_bind, Option.bind_some, Int.toNat_natCast, hfound]
      simp [hchild, ne_null hz, setNext, getPrev, setPrev, hx, hy, hz, hprev, hxz]
    · have hhead : ∀ q qs, ((k ++ [y]) ++ q :: qs).headD 0 = (k ++ [y]).headD 0 := by
        intro q qs
        cases k with
        | nil => rfl
        | cons w k => rfl
      rw [hhead, ← hhead z l₂]
      exact hc.child
    · have hyD : ∀ a, (k ++ [y]).getLastD a = y := by
        intro a
        simp
      rw [getLastD_append_cons, hlast, Segment.around_iff, hyD]
      refine ⟨?_, ?_, ?_, ⟨Function.update_self .., ?_, ?_⟩⟩
      · exact ((((ha.before.set_next_of_notMem hx₁).set_next_last (v := x) hyk).set_prev_of_notMem
          hx₁).set_prev_of_notMem ha.notBefore)
      · exact (Function.update_of_ne hxz _ _).trans (Function.update_self ..)
      · exact (Function.update_of_ne hxy _ _).trans (Function.update_self ..)
      · exact (Function.update_of_ne hyz.symm _ _).trans
          ((Function.update_of_ne hxz.symm _ _).trans ha.next)
      · exact (((ha.behind.set_next_of_notMem hxl₂).set_next_of_notMem hyl₂).set_prev_of_notMem
          hxl₂).set_prev_of_notMem ha.notBehind
    · intro p hp
      simp only [List.mem_append, not_or] at hp
      have hpx := List.ne_of_not_mem_cons hp.2
      have hpy := List.ne_of_not_mem_cons hp.1.2
      exact (Function.update_of_ne hpy _ _).trans (Function.update_of_ne hpx _ _)
    · intro p hp
      simp only [List.mem_append, not_or] at hp
      have hpx := List.ne_of_not_mem_cons hp.2
      have hpz := List.ne_of_not_mem_cons (List.not_mem_of_not_mem_cons hp.2)
      exact (Function.update_of_ne hpz _ _).trans (Function.update_of_ne hpx _ _)

/-! ### Replacing -/

/-- The first child is replaced: an only child knows itself. -/
theorem replace_first {r : Ptr} (hc : Children h parent (x :: l₂)) (hr : h.live r)
    (hfresh : r ∉ x :: l₂) :
    ∃ h', replaceLinks h parent x r = some h' ∧ Children h' parent (r :: l₂) ∧
      h'.next x = 0 ∧ Frame h h' parent (r :: x :: l₂) := by
  have hsplit : Children h parent ([] ++ x :: l₂) := hc
  have ha : Around h parent [] x l₂ := hsplit.around
  have hx := hc.live x List.mem_cons_self
  have hrx : r ≠ x := List.ne_of_not_mem_cons hfresh
  have hrl₂ := List.not_mem_of_not_mem_cons hfresh
  have hchild : h.child parent = x := ha.child
  have hprev : h.prev x = l₂.getLastD x := ha.prev
  have hnodup : (r :: l₂).Nodup := List.nodup_cons.2 ⟨hrl₂, (List.nodup_cons.1 hc.nodup).2⟩
  have hlive : ∀ p ∈ r :: l₂, h.live p := by
    intro p hp
    rcases List.mem_cons.1 hp with rfl | hp
    · exact hr
    · exact hc.live p (List.mem_cons_of_mem x hp)
  have hframe : ∀ p, p ∉ r :: x :: l₂ → p ≠ r ∧ p ≠ x ∧ p ∉ l₂ := fun p hp =>
    ⟨List.ne_of_not_mem_cons hp, List.ne_of_not_mem_cons (List.not_mem_of_not_mem_cons hp),
      List.not_mem_of_not_mem_cons (List.not_mem_of_not_mem_cons hp)⟩
  cases l₂ with
  | nil =>
    have hnext : h.next x = 0 := ha.next
    refine ⟨{ h with
      next := Function.update (Function.update h.next r 0) x 0
      prev := Function.update (Function.update (Function.update h.prev r x) r r) x 0
      child := Function.update h.child parent r }, ?_, ⟨hc.parent_live, ?_, ?_, hlive, hnodup⟩,
      Function.update_self .., ⟨rfl, rfl, ?_, ?_, ?_⟩⟩
    · have hprev' : h.prev x = x := hprev
      rw [replaceLinks]
      simp [getNext, hx, hr, hnext, setNext, getPrev, hprev', setPrev, getChild, hc.parent_live,
        hchild, setChild, hrx.symm]
    · exact Function.update_self ..
    · refine Segment.singleton_iff.2 ⟨?_, ?_⟩
      · exact (Function.update_of_ne hrx _ _).trans (Function.update_self ..)
      · exact (Function.update_of_ne hrx _ _).trans (Function.update_self ..)
    · exact fun p hp => Function.update_of_ne hp _ _
    · intro p hp
      obtain ⟨hpr, hpx, -⟩ := hframe p hp
      exact (Function.update_of_ne hpx _ _).trans (Function.update_of_ne hpr _ _)
    · intro p hp
      obtain ⟨hpr, hpx, -⟩ := hframe p hp
      exact (Function.update_of_ne hpx _ _).trans
        ((Function.update_of_ne hpr _ _).trans (Function.update_of_ne hpr _ _))
  | cons z m =>
    have hz := hc.live z (List.mem_cons_of_mem x List.mem_cons_self)
    have hnext : h.next x = z := ha.next
    have hxz : x ≠ z := fun he => ha.notBehind (he ▸ List.mem_cons_self)
    have hrz : r ≠ z := List.ne_of_not_mem_cons hrl₂
    have hzm : z ∉ m := (List.nodup_cons.1 (List.nodup_cons.1 hc.nodup).2).1
    have hlast : (z :: m).getLastD x ≠ x := by
      have hmem : (z :: m).getLastD x ∈ z :: m := by
        rw [List.getLastD_cons, ← List.getLast_eq_getLastD]
        exact List.getLast_mem (List.cons_ne_nil z m)
      exact ne_of_mem_of_not_mem hmem ha.notBehind
    refine ⟨{ h with
      next := Function.update (Function.update h.next r z) x 0
      prev := Function.update (Function.update (Function.update h.prev r
        ((z :: m).getLastD x)) z r) x 0
      child := Function.update h.child parent r }, ?_, ⟨hc.parent_live, ?_, ?_, hlive, hnodup⟩,
      Function.update_self .., ⟨rfl, rfl, ?_, ?_, ?_⟩⟩
    · rw [replaceLinks]
      simp only [getNext, hx, hr, hnext, setNext, getPrev, hprev, setPrev, getChild, hc.parent_live,
        hchild, setChild, if_true, Option.bind_eq_bind, Option.bind_some, Function.update_self,
        ne_null hz, hz, not_false_eq_true, if_neg hlast, Function.update_of_ne hxz,
        Function.update_of_ne hrx.symm, ne_eq]
    · exact Function.update_self ..
    · refine ⟨?_, ?_, ?_⟩
      · have hsame : (r :: z :: m).getLastD 0 = (z :: m).getLastD x := by
          cases m with
          | nil => rfl
          | cons y m => rfl
        rw [hsame]
        exact (Function.update_of_ne hrx _ _).trans
          ((Function.update_of_ne hrz _ _).trans (Function.update_self ..))
      · exact (Function.update_of_ne hrx _ _).trans (Function.update_self ..)
      · exact ((((ha.behind.set_prev_of_notMem hrl₂).set_prev_head hzm).set_prev_of_notMem
          ha.notBehind).set_next_of_notMem hrl₂).set_next_of_notMem ha.notBehind
    · exact fun p hp => Function.update_of_ne hp _ _
    · intro p hp
      obtain ⟨hpr, hpx, -⟩ := hframe p hp
      exact (Function.update_of_ne hpx _ _).trans (Function.update_of_ne hpr _ _)
    · intro p hp
      obtain ⟨hpr, hpx, hpz⟩ := hframe p hp
      exact (Function.update_of_ne hpx _ _).trans
        ((Function.update_of_ne (List.ne_of_not_mem_cons hpz) _ _).trans
          (Function.update_of_ne hpr _ _))

/-- A later child is replaced: the first child gets to know a new last one. -/
theorem replace_later {r y : Ptr} (hc : Children h parent ((l₁ ++ [y]) ++ x :: l₂))
    (hr : h.live r) (hfresh : r ∉ (l₁ ++ [y]) ++ x :: l₂) :
    ∃ h', replaceLinks h parent x r = some h' ∧
      Children h' parent ((l₁ ++ [y]) ++ r :: l₂) ∧ h'.next x = 0 ∧
      Frame h h' parent (r :: ((l₁ ++ [y]) ++ x :: l₂)) := by
  have ha := hc.around
  have hmem : ∀ p ∈ l₁ ++ [y], h.live p := fun p hp => hc.live p (List.mem_append_left _ hp)
  have hx := hc.live x (List.mem_append_right _ List.mem_cons_self)
  have hr₁ : r ∉ l₁ ++ [y] := fun hp => hfresh (List.mem_append_left _ hp)
  have hr₂ : r ∉ x :: l₂ := fun hp => hfresh (List.mem_append_right _ hp)
  have hrx : r ≠ x := List.ne_of_not_mem_cons hr₂
  have hrl₂ := List.not_mem_of_not_mem_cons hr₂
  have hylast : y ∈ l₁ ++ [y] := List.mem_append_right _ List.mem_cons_self
  have hy := hmem y hylast
  have hxy : x ≠ y := fun he => ha.notBefore (he ▸ hylast)
  have hry : r ≠ y := fun he => hr₁ (he ▸ hylast)
  have hprev : h.prev x = y := by
    rw [ha.prev]
    simp
  obtain ⟨first, tail, hcons⟩ := List.exists_cons_of_ne_nil (List.append_ne_nil_of_right_ne_nil l₁
    (List.cons_ne_nil y []))
  have hfirst : first ∈ l₁ ++ [y] := hcons ▸ List.mem_cons_self
  have hxfirst : x ≠ first := fun he => ha.notBefore (he ▸ hfirst)
  have hrfirst : r ≠ first := fun he => hr₁ (he ▸ hfirst)
  have hchild : h.child parent = first := by
    rw [ha.child, hcons]
    rfl
  have hnodup₁ := (List.nodup_append.1 hc.nodup).1
  have hyl₁ : y ∉ l₁ := fun hp =>
    (List.nodup_append.1 hnodup₁).2.2 y hp y List.mem_cons_self rfl
  have hfirsttail : first ∉ tail := by
    rw [hcons] at hnodup₁
    exact (List.nodup_cons.1 hnodup₁).1
  have hnodup := nodup_insert (nodup_remove hc.nodup) hr₁ hrl₂
  have hlive : ∀ p ∈ (l₁ ++ [y]) ++ r :: l₂, h.live p := by
    intro p hp
    rcases List.mem_append.1 hp with hp | hp
    · exact hmem p hp
    rcases List.mem_cons.1 hp with rfl | hp
    · exact hr
    · exact hc.live p (List.mem_append_right _ (List.mem_cons_of_mem x hp))
  have hframe : ∀ p, p ∉ r :: ((l₁ ++ [y]) ++ x :: l₂) →
      p ≠ r ∧ p ≠ x ∧ p ≠ y ∧ p ≠ first ∧ p ∉ l₂ := by
    intro p hp
    have hpr := List.ne_of_not_mem_cons hp
    have hp' := List.not_mem_of_not_mem_cons hp
    simp only [List.mem_append, not_or] at hp'
    refine ⟨hpr, List.ne_of_not_mem_cons hp'.2, List.ne_of_not_mem_cons hp'.1.2, fun he => ?_,
      List.not_mem_of_not_mem_cons hp'.2⟩
    rw [he] at hp'
    exact (not_or.2 hp'.1) (List.mem_append.1 hfirst)
  have hhead : ∀ q qs, ((l₁ ++ [y]) ++ q :: qs).headD 0 = first := by
    intro q qs
    rw [hcons]
    rfl
  have hyD : ∀ a, (l₁ ++ [y]).getLastD a = y := by
    intro a
    simp
  cases l₂ with
  | nil =>
    have hnext : h.next x = 0 := ha.next
    have hbefore : Segment h.next h.prev x (l₁ ++ [y]) x := ha.before
    refine ⟨{ h with
      next := Function.update (Function.update (Function.update h.next r 0) y r) x 0
      prev := Function.update (Function.update (Function.update h.prev r y) first r) x 0 }, ?_,
      ⟨hc.parent_live, ?_, ?_, hlive, hnodup⟩, Function.update_self ..,
      ⟨rfl, rfl, fun _ _ => rfl, ?_, ?_⟩⟩
    · rw [replaceLinks]
      simp [getNext, hx, hr, hnext, setNext, getPrev, hprev, setPrev, getChild, hc.parent_live,
        hchild, hxfirst.symm, ne_null hy, hy, hry, hmem first hfirst]
    · exact hchild.trans (hhead r []).symm
    · rw [getLastD_concat, Segment.around_iff, hyD]
      refine ⟨?_, ?_, ?_, Segment.nil⟩
      · have hnew := (hbefore.set_next_of_notMem (v := 0) hr₁).set_next_last (v := r) hyl₁
        have hnew' := (hnew.set_prev_of_notMem (v := y) hr₁)
        have hx' := ha.notBefore
        rw [hcons] at hnew' hx' ⊢
        exact ((hnew'.set_prev_head (v := r) hfirsttail).set_prev_of_notMem
          hx').set_next_of_notMem hx'
      · exact (Function.update_of_ne hrx _ _).trans
          ((Function.update_of_ne hrfirst _ _).trans (Function.update_self ..))
      · exact (Function.update_of_ne hrx _ _).trans
          ((Function.update_of_ne hry _ _).trans (Function.update_self ..))
    · intro p hp
      obtain ⟨hpr, hpx, hpy, -, -⟩ := hframe p hp
      exact (Function.update_of_ne hpx _ _).trans
        ((Function.update_of_ne hpy _ _).trans (Function.update_of_ne hpr _ _))
    · intro p hp
      obtain ⟨hpr, hpx, -, hpf, -⟩ := hframe p hp
      exact (Function.update_of_ne hpx _ _).trans
        ((Function.update_of_ne hpf _ _).trans (Function.update_of_ne hpr _ _))
  | cons z m =>
    have hnext : h.next x = z := ha.next
    have hz := hc.live z (List.mem_append_right _ (List.mem_cons_of_mem x List.mem_cons_self))
    have hxz : x ≠ z := fun he => ha.notBehind (he ▸ List.mem_cons_self)
    have hrz : r ≠ z := List.ne_of_not_mem_cons hrl₂
    have hyzm : y ∉ z :: m := ha.disjoint y hylast
    have hzl₁ : z ∉ l₁ ++ [y] := fun hp => ha.disjoint z hp List.mem_cons_self
    have hzm : z ∉ m := by
      have := (List.nodup_append.1 hc.nodup).2.1
      exact (List.nodup_cons.1 (List.nodup_cons.1 this).2).1
    refine ⟨{ h with
      next := Function.update (Function.update (Function.update h.next r z) y r) x 0
      prev := Function.update (Function.update (Function.update h.prev r y) z r) x 0 }, ?_,
      ⟨hc.parent_live, ?_, ?_, hlive, hnodup⟩, Function.update_self ..,
      ⟨rfl, rfl, fun _ _ => rfl, ?_, ?_⟩⟩
    · rw [replaceLinks]
      simp [getNext, hx, hr, hnext, setNext, getPrev, hprev, setPrev, getChild, hc.parent_live,
        hchild, hxfirst.symm, ne_null hy, hy, hry, hz, ne_null hz, hrz]
    · exact hchild.trans (hhead r (z :: m)).symm
    · have hlast : (z :: m).getLastD r = (z :: m).getLastD x := by
        cases m with
        | nil => rfl
        | cons w m => rfl
      rw [getLastD_append_cons, hlast, Segment.around_iff, hyD]
      refine ⟨?_, ?_, ?_, ?_⟩
      · exact ((((((ha.before.set_next_of_notMem hr₁).set_next_last (v := r)
          hyl₁).set_next_of_notMem ha.notBefore).set_prev_of_notMem hr₁).set_prev_of_notMem
          hzl₁).set_prev_of_notMem ha.notBefore)
      · exact (Function.update_of_ne hrx _ _).trans
          ((Function.update_of_ne hrz _ _).trans (Function.update_self ..))
      · exact (Function.update_of_ne hrx _ _).trans
          ((Function.update_of_ne hry _ _).trans (Function.update_self ..))
      · exact (((((ha.behind.set_prev_of_notMem hrl₂).set_prev_head (v := r)
          hzm).set_prev_of_notMem ha.notBehind).set_next_of_notMem hrl₂).set_next_of_notMem
          hyzm).set_next_of_notMem ha.notBehind
    · intro p hp
      obtain ⟨hpr, hpx, hpy, -, -⟩ := hframe p hp
      exact (Function.update_of_ne hpx _ _).trans
        ((Function.update_of_ne hpy _ _).trans (Function.update_of_ne hpr _ _))
    · intro p hp
      obtain ⟨hpr, hpx, -, -, hp₂⟩ := hframe p hp
      exact (Function.update_of_ne hpx _ _).trans
        ((Function.update_of_ne (List.ne_of_not_mem_cons hp₂) _ _).trans
          (Function.update_of_ne hpr _ _))

theorem replaceLinks_eq {r : Ptr} (hc : Children h parent (l₁ ++ x :: l₂)) (hr : h.live r)
    (hfresh : r ∉ l₁ ++ x :: l₂) :
    ∃ h', replaceLinks h parent x r = some h' ∧
      Children h' parent (l₁ ++ r :: l₂) ∧ h'.next x = 0 ∧
      Frame h h' parent (r :: (l₁ ++ x :: l₂)) := by
  rcases List.eq_nil_or_concat' l₁ with rfl | ⟨k, y, rfl⟩
  · exact replace_first hc hr hfresh
  · exact replace_later hc hr hfresh

/-- Wherever the list ends in front of the index, the new item becomes the last one. -/
theorem insertItemInArray_eq (which : Nat) (hc : Children h parent ps) (hx : h.live x)
    (hne : parent ≠ x) (hfresh : x ∉ ps) (hloose : h.next x = 0) :
    ∃ h', insertItemInArray h parent which x = some (h', true) ∧
      Children h' parent (ps.take which ++ x :: ps.drop which) ∧
      Frame h h' parent (ps.take which ++ x :: ps.drop which) := by
  cases hdrop : ps.drop which with
  | nil =>
    have hle : ps.length ≤ which := List.drop_eq_nil_iff.1 hdrop
    have hnone : getArrayItem h (h.child parent) which = some 0 := by
      rw [hc.child, getArrayItem_eq hc.live hc.linked, List.getElem?_eq_none hle]
      rfl
    have hadd : insertItemInArray h parent which x = addItemToArray h parent x := by
      rw [insertItemInArray, if_neg (by omega), getChild, if_pos hc.parent_live,
        Option.bind_eq_bind, Option.bind_some, Int.toNat_natCast, hnone]
      rfl
    rw [hadd, List.take_of_length_le hle]
    exact addItemToArray_eq hc hx hne hfresh hloose
  | cons z m =>
    have hsplit : ps = ps.take which ++ z :: m := by rw [← hdrop, List.take_append_drop]
    have hlt : which < ps.length := by
      rcases Nat.lt_or_ge which ps.length with hlt | hge
      · exact hlt
      · rw [List.drop_of_length_le hge] at hdrop
        cases hdrop
    rw [hsplit] at hc hfresh
    refine insertItemInArray_before hc ?_ hx hfresh
    rw [List.length_take]
    exact Nat.min_eq_left (Nat.le_of_lt hlt)

end Siblings
end CFunction
