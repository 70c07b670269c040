import CFunction.Json.SortList
import CFunction.Json.Proofs.SiblingLinks
import CFunction.Misc.StrictMerge

/-!
# What sorting does to the links

`sort_list` gives the merge sort of the items, with every link right but one: nothing is written
to `prev` of the first item, which is what it was if this item was the first one before, and
`NULL` if it was not.
-/

namespace CFunction
namespace Siblings

open Json

variable {h h' : Memory} {caseSensitive : Bool} {n : Nat} {a b : Ptr} {ps qs rs l₁ l₂ : List Ptr}

/-- The order that the items are sorted in. -/
def byName (string : Ptr → Option Str) (caseSensitive : Bool) (p q : Ptr) : Bool :=
  before caseSensitive (string p) (string q)

/-- What relinking the items `ps` leaves as it is. -/
structure Relinks (h h' : Memory) (ps : List Ptr) : Prop where
  live : h'.live = h.live
  string : h'.string = h.string
  child : h'.child = h.child
  next : ∀ p ∉ ps, h'.next p = h.next p
  prev : ∀ p ∉ ps, h'.prev p = h.prev p

theorem Relinks.refl (h : Memory) (ps : List Ptr) : Relinks h h ps :=
  ⟨rfl, rfl, rfl, fun _ _ => rfl, fun _ _ => rfl⟩

theorem Relinks.trans {h'' : Memory} (h₁ : Relinks h h' ps) (h₂ : Relinks h' h'' qs)
    (hps : ∀ p ∈ ps, p ∈ rs) (hqs : ∀ p ∈ qs, p ∈ rs) : Relinks h h'' rs where
  live := h₂.live.trans h₁.live
  string := h₂.string.trans h₁.string
  child := h₂.child.trans h₁.child
  next p hp := (h₂.next p fun hq => hp (hqs p hq)).trans (h₁.next p fun hq => hp (hps p hq))
  prev p hp := (h₂.prev p fun hq => hp (hqs p hq)).trans (h₁.prev p fun hq => hp (hps p hq))

/-- A segment apart from what is relinked. -/
theorem Relinks.segment (hr : Relinks h h' qs) (hs : Segment h.next h.prev a ps b)
    (hapart : ∀ p ∈ ps, p ∉ qs) : Segment h'.next h'.prev a ps b :=
  hs.congr (fun p hp => hr.next p (hapart p hp)) fun p hp => hr.prev p (hapart p hp)

/-! ### The loops that only read -/

theorem comesBefore_eq {p q : Ptr} (hp : h.live p) (hq : h.live q) :
    comesBefore h caseSensitive p q = some (byName h.string caseSensitive p q) :=
  if_pos ⟨hp, hq⟩

theorem sortedLoop_sorted (hlive : ∀ p ∈ ps, h.live p) (hlinked : Segment h.next h.prev a ps 0)
    (hn : ps.length < n) (caseSensitive : Bool) :
    sortedLoop h caseSensitive n (ps.headD 0) = some true ∧
        List.IsChain (fun p q => byName h.string caseSensitive p q = true) ps ∨
      sortedLoop h caseSensitive n (ps.headD 0) = some false := by
  induction n generalizing ps a with
  | zero => exact absurd hn (Nat.not_lt_zero _)
  | succ n ih =>
    rw [sortedLoop]
    cases ps with
    | nil => exact Or.inl ⟨if_pos rfl, List.IsChain.nil⟩
    | cons p ps =>
      have hp := hlive p List.mem_cons_self
      have hps : ∀ q ∈ ps, h.live q := fun q hq => hlive q (List.mem_cons_of_mem p hq)
      have hnext : h.next p = ps.headD 0 := hlinked.2.1
      rw [List.headD_cons, if_neg (ne_null hp), getNext, if_pos hp, Option.bind_eq_bind,
        Option.bind_some, hnext]
      cases ps with
      | nil => exact Or.inl ⟨if_pos rfl, List.IsChain.singleton p⟩
      | cons q ps =>
        have hq := hps q List.mem_cons_self
        rw [List.headD_cons, if_neg (ne_null hq), comesBefore_eq hp hq, Option.bind_eq_bind,
          Option.bind_some]
        by_cases hlt : byName h.string caseSensitive p q = true
        · rw [if_pos hlt]
          rcases ih hps hlinked.2.2 (Nat.lt_of_succ_lt_succ hn) with ⟨hloop, hchain⟩ | hloop
          · exact Or.inl ⟨hloop, List.isChain_cons_cons.2 ⟨hlt, hchain⟩⟩
          · exact Or.inr hloop
        · rw [if_neg hlt]
          exact Or.inr rfl

/-- One pointer makes one step for two steps of the other. -/
theorem middleLoop_eq (hlive : ∀ p ∈ ps, h.live p) (hlive' : ∀ p ∈ qs, h.live p)
    (hlinked : Segment h.next h.prev a ps 0) (hlinked' : Segment h.next h.prev b qs 0)
    (hlen : (qs.length + 1) / 2 ≤ ps.length) (hn : qs.length < n) :
    middleLoop h n (ps.headD 0) (qs.headD 0) = some ((ps.drop ((qs.length + 1) / 2)).headD 0) := by
  induction n generalizing ps qs a b with
  | zero => exact absurd hn (Nat.not_lt_zero _)
  | succ n ih =>
    rw [middleLoop]
    cases qs with
    | nil => exact if_pos rfl
    | cons q qs =>
      have hq := hlive' q List.mem_cons_self
      cases ps with
      | nil =>
        rw [List.length_cons, List.length_nil] at hlen
        omega
      | cons p ps =>
        have hp := hlive p List.mem_cons_self
        have hps : ∀ q ∈ ps, h.live q := fun q hq => hlive q (List.mem_cons_of_mem p hq)
        rw [List.headD_cons, List.headD_cons, if_neg (ne_null hq)]
        simp only [getNext, if_pos hp, if_pos hq, Option.bind_eq_bind, Option.bind_some,
          hlinked.2.1, hlinked'.2.1]
        cases qs with
        | nil =>
          have hnone : ∀ q ∈ ([] : List Ptr), h.live q := fun _ h => absurd h List.not_mem_nil
          have := ih (b := 0) hps hnone hlinked.2.2 Segment.nil (Nat.zero_le _)
            (Nat.lt_of_succ_lt_succ hn)
          simpa using this
        | cons r qs =>
          have hr := hlive' r (List.mem_cons_of_mem q List.mem_cons_self)
          have hrest : ∀ p ∈ qs, h.live p := fun p hp =>
            hlive' p (List.mem_cons_of_mem q (List.mem_cons_of_mem r hp))
          have hhalf : ((q :: r :: qs).length + 1) / 2 = (qs.length + 1) / 2 + 1 := by
            rw [List.length_cons, List.length_cons]
            omega
          rw [hhalf, List.length_cons] at hlen
          rw [List.length_cons, List.length_cons] at hn
          rw [List.headD_cons, if_pos (ne_null hr), if_pos hr, Option.bind_some, hlinked'.2.2.2.1,
            hhalf, List.drop_succ_cons]
          exact ih hps hrest hlinked.2.2 hlinked'.2.2.2.2 (by omega) (by omega)

/-! ### Splitting -/

theorem splitBefore_eq (hlive : ∀ p ∈ l₁ ++ l₂, h.live p) (hnodup : (l₁ ++ l₂).Nodup)
    (h₁ : l₁ ≠ []) (h₂ : l₂ ≠ []) (hlinked : Segment h.next h.prev a (l₁ ++ l₂) 0) :
    ∃ h', splitBefore h (l₂.headD 0) = some h' ∧ Segment h'.next h'.prev a l₁ 0 ∧
      Segment h'.next h'.prev 0 l₂ 0 ∧ Relinks h h' (l₁ ++ l₂) := by
  obtain ⟨k, y, rfl⟩ : ∃ k y, l₁ = k ++ [y] :=
    ⟨_, _, (List.dropLast_append_getLast h₁).symm⟩
  obtain ⟨z, m, rfl⟩ := List.exists_cons_of_ne_nil h₂
  have hyD : (k ++ [y]).getLastD a = y := by simp
  rw [Segment.append_iff, hyD, List.headD_cons] at hlinked
  obtain ⟨hbefore, hbehind⟩ := hlinked
  have hy := hlive y (List.mem_append_left _ (List.mem_append_right _ List.mem_cons_self))
  have hz := hlive z (List.mem_append_right _ List.mem_cons_self)
  obtain ⟨hn₁, hn₂, hdisjoint⟩ := List.nodup_append.1 hnodup
  have hyk : y ∉ k := fun hp => (List.nodup_append.1 hn₁).2.2 y hp y List.mem_cons_self rfl
  have hzm : z ∉ m := (List.nodup_cons.1 hn₂).1
  have hzk : z ∉ k ++ [y] := fun hp => hdisjoint z hp z List.mem_cons_self rfl
  have hyzm : y ∉ z :: m := fun hp =>
    hdisjoint y (List.mem_append_right _ List.mem_cons_self) y hp rfl
  refine ⟨{ h with
    next := Function.update h.next y 0
    prev := Function.update h.prev z 0 }, ?_, ?_, ?_, ⟨rfl, rfl, rfl, ?_, ?_⟩⟩
  · rw [splitBefore, List.headD_cons, if_neg (ne_null hz), getPrev, if_pos hz,
      show h.prev z = y from hbehind.1]
    simp [ne_null hy, setNext, setPrev, hy, hz]
  · exact (hbefore.set_next_last hyk).set_prev_of_notMem hzk
  · exact (hbehind.set_prev_head hzm).set_next_of_notMem hyzm
  · intro p hp
    simp only [List.mem_append, not_or] at hp
    exact Function.update_of_ne (List.ne_of_not_mem_cons hp.1.2) _ _
  · intro p hp
    simp only [List.mem_append, not_or] at hp
    exact Function.update_of_ne (List.ne_of_not_mem_cons hp.2) _ _

/-! ### Merging -/

/-- What is merged so far, up to the item `tail`, and what is left of the two lists. -/
structure Merged (h : Memory) (a : Ptr) (init : List Ptr) (tail : Ptr) (qs rs : List Ptr) :
    Prop where
  live : ∀ p ∈ (init ++ [tail]) ++ (qs ++ rs), h.live p
  nodup : ((init ++ [tail]) ++ (qs ++ rs)).Nodup
  merged : ∃ b, Segment h.next h.prev a (init ++ [tail]) b
  first : ∃ b, Segment h.next h.prev b qs 0
  second : ∃ b, Segment h.next h.prev b rs 0

/-- The loop with the list that is appended to it. -/
def finishMerge (caseSensitive : Bool) (h : Memory) (n : Nat) (m : Merging) :
    Option (Memory × Ptr) := do
  let (h, m) ← mergeLoop h caseSensitive n m
  if m.first ≠ 0 then appendRest h m m.first
  else if m.second ≠ 0 then appendRest h m m.second
  else some (h, m.result)

/-- The rest of a list is linked to the last item. -/
theorem appendRest_eq {init : List Ptr} {tail c x y : Ptr}
    (hlive : ∀ p ∈ (init ++ [tail]) ++ qs, h.live p)
    (hnodup : ((init ++ [tail]) ++ qs).Nodup) (hmerged : Segment h.next h.prev a (init ++ [tail]) b)
    (hrest : Segment h.next h.prev c qs 0) (hqs : qs ≠ []) :
    ∃ h', appendRest h ⟨x, y, (init ++ [tail]).headD 0, tail⟩ (qs.headD 0) =
        some (h', (init ++ [tail]).headD 0) ∧
      Segment h'.next h'.prev a ((init ++ [tail]) ++ qs) 0 ∧
      Relinks h h' ((init ++ [tail]) ++ qs) := by
  obtain ⟨q, m, rfl⟩ := List.exists_cons_of_ne_nil hqs
  have htail := hlive tail (List.mem_append_left _ (List.mem_append_right _ List.mem_cons_self))
  have hq := hlive q (List.mem_append_right _ List.mem_cons_self)
  obtain ⟨hn₁, hn₂, hdisjoint⟩ := List.nodup_append.1 hnodup
  have htailinit : tail ∉ init := fun hp =>
    (List.nodup_append.1 hn₁).2.2 tail hp tail List.mem_cons_self rfl
  have hqm : q ∉ m := (List.nodup_cons.1 hn₂).1
  have hqinit : q ∉ init ++ [tail] := fun hp => hdisjoint q hp q List.mem_cons_self rfl
  have htailrest : tail ∉ q :: m := fun hp =>
    hdisjoint tail (List.mem_append_right _ List.mem_cons_self) tail hp rfl
  have hresult : (init ++ [tail]).headD 0 ≠ 0 := by
    cases init with
    | nil => exact ne_null htail
    | cons p init => exact ne_null (hlive p List.mem_cons_self)
  refine ⟨{ h with
    next := Function.update h.next tail q
    prev := Function.update h.prev q tail }, ?_, ?_, ⟨rfl, rfl, rfl, ?_, ?_⟩⟩
  · rw [appendRest, if_neg hresult]
    simp [setNext, setPrev, htail, hq]
  · have htailD : (init ++ [tail]).getLastD a = tail := by simp
    rw [Segment.append_iff, htailD, List.headD_cons]
    exact ⟨(hmerged.set_next_last htailinit).set_prev_of_notMem hqinit,
      (hrest.set_prev_head hqm).set_next_of_notMem htailrest⟩
  · intro p hp
    simp only [List.mem_append, not_or] at hp
    exact Function.update_of_ne (List.ne_of_not_mem_cons hp.1.2) _ _
  · intro p hp
    simp only [List.mem_append, not_or] at hp
    exact Function.update_of_ne (List.ne_of_not_mem_cons hp.2) _ _

/-- One of the two heads is linked to the last item and is the last item now. -/
theorem Merged.pick {init : List Ptr} {tail q : Ptr} {m : List Ptr}
    (hm : Merged h a init tail (q :: m) rs) :
    ∃ h', setNext h tail q = some h' ∧ ∃ h'', setPrev h' q tail = some h'' ∧
      h''.next q = m.headD 0 ∧ Merged h'' a (init ++ [tail]) q m rs ∧
      Relinks h h'' ((init ++ [tail]) ++ ((q :: m) ++ rs)) := by
  obtain ⟨b, hmerged⟩ := hm.merged
  obtain ⟨c, hfirst⟩ := hm.first
  obtain ⟨d, hsecond⟩ := hm.second
  have htail := hm.live tail (List.mem_append_left _ (List.mem_append_right _ List.mem_cons_self))
  have hq := hm.live q (List.mem_append_right _ (List.mem_append_left _ List.mem_cons_self))
  obtain ⟨hn₁, hn₂, hdisjoint⟩ := List.nodup_append.1 hm.nodup
  have htailinit : tail ∉ init := fun hp =>
    (List.nodup_append.1 hn₁).2.2 tail hp tail List.mem_cons_self rfl
  have hmemtail : tail ∈ init ++ [tail] := List.mem_append_right _ List.mem_cons_self
  have hmemq : q ∈ (q :: m) ++ rs := List.mem_append_left _ List.mem_cons_self
  have hqm : q ∉ m := (List.nodup_cons.1 (List.nodup_append.1 hn₂).1).1
  have hqrs : q ∉ rs := fun hp => (List.nodup_append.1 hn₂).2.2 q List.mem_cons_self q hp rfl
  have hqinit : q ∉ init ++ [tail] := fun hp => hdisjoint q hp q hmemq rfl
  have htailrest : tail ∉ (q :: m) ++ rs := fun hp => hdisjoint tail hmemtail tail hp rfl
  have htailq : tail ≠ q := fun he => htailrest (he ▸ hmemq)
  have htailm : tail ∉ m := fun hp =>
    htailrest (List.mem_append_left _ (List.mem_cons_of_mem q hp))
  have htailrs : tail ∉ rs := fun hp => htailrest (List.mem_append_right _ hp)
  have hlist : ((init ++ [tail]) ++ [q]) ++ (m ++ rs) = (init ++ [tail]) ++ ((q :: m) ++ rs) := by
    simp
  refine ⟨_, if_pos htail, _, if_pos hq, ?_, ⟨?_, ?_, ⟨m.headD 0, ?_⟩, ⟨q, ?_⟩, ⟨d, ?_⟩⟩,
    ⟨rfl, rfl, rfl, ?_, ?_⟩⟩
  · exact (Function.update_of_ne htailq.symm _ _).trans hfirst.2.1
  · rw [hlist]
    exact hm.live
  · rw [hlist]
    exact hm.nodup
  · have htailD : (init ++ [tail]).getLastD a = tail := by simp
    rw [Segment.append_iff, List.headD_cons, htailD, Segment.singleton_iff]
    refine ⟨(hmerged.set_next_last htailinit).set_prev_of_notMem hqinit, Function.update_self ..,
      ?_⟩
    exact (Function.update_of_ne htailq.symm _ _).trans hfirst.2.1
  · exact (hfirst.2.2.set_next_of_notMem htailm).set_prev_of_notMem hqm
  · exact (hsecond.set_next_of_notMem htailrs).set_prev_of_notMem hqrs
  · intro p hp
    exact Function.update_of_ne (ne_of_mem_of_not_mem (List.mem_append_left _ hmemtail) hp).symm _ _
  · intro p hp
    exact Function.update_of_ne (ne_of_mem_of_not_mem (List.mem_append_right _ hmemq) hp).symm _ _

theorem Merged.swap {init : List Ptr} {tail : Ptr} (hm : Merged h a init tail qs rs) :
    Merged h a init tail rs qs where
  live p hp := by
    apply hm.live p
    simp only [List.mem_append] at hp ⊢
    tauto
  nodup := by
    have hperm : ((init ++ [tail]) ++ (rs ++ qs)).Perm ((init ++ [tail]) ++ (qs ++ rs)) :=
      List.Perm.append_left _ List.perm_append_comm
    exact hperm.nodup_iff.2 hm.nodup
  merged := hm.merged
  first := hm.second
  second := hm.first

theorem headD_concat_concat (init : List Ptr) (tail q : Ptr) :
    ((init ++ [tail]) ++ [q]).headD 0 = (init ++ [tail]).headD 0 := by
  cases init with
  | nil => rfl
  | cons p init => rfl

theorem finishMerge_nil (hps : ps ≠ []) {init : List Ptr} {tail x y : Ptr} {m : Merging}
    (hm : m = ⟨x, y, (init ++ [tail]).headD 0, tail⟩) (hempty : x = 0 ∨ y = 0)
    (hrest : (if x ≠ 0 then x else y) = ps.headD 0) (hlive : ∀ p ∈ ps, h.live p) :
    finishMerge caseSensitive h (n + 1) m = appendRest h m (ps.headD 0) := by
  obtain ⟨p, ps, rfl⟩ := List.exists_cons_of_ne_nil hps
  have hp := ne_null (hlive p List.mem_cons_self)
  rw [List.headD_cons] at hrest ⊢
  rw [hm, finishMerge, mergeLoop, if_pos hempty]
  by_cases hx : x = 0
  · have hy : y = p := by simpa [hx] using hrest
    simp [hx, hy, hp]
  · have hxp : x = p := by simpa [hx] using hrest
    simp [hxp, hp]

/-- The loop links the two lists to the items merged so far, in the order of a merge. -/
theorem finishMerge_eq {init : List Ptr} {tail : Ptr} (hm : Merged h a init tail qs rs)
    (hne : qs ++ rs ≠ []) (hn : qs.length + rs.length < n) :
    ∃ h', finishMerge caseSensitive h n
          ⟨qs.headD 0, rs.headD 0, (init ++ [tail]).headD 0, tail⟩ =
        some (h', (init ++ [tail]).headD 0) ∧
      Segment h'.next h'.prev a
        ((init ++ [tail]) ++ qs.merge rs (byName h.string caseSensitive)) 0 ∧
      Relinks h h' ((init ++ [tail]) ++ (qs ++ rs)) := by
  induction n generalizing h init tail qs rs with
  | zero => exact absurd hn (Nat.not_lt_zero _)
  | succ n ih =>
    obtain ⟨b, hmerged⟩ := hm.merged
    obtain ⟨c, hfirst⟩ := hm.first
    obtain ⟨d, hsecond⟩ := hm.second
    cases qs with
    | nil =>
      rw [List.nil_append] at hne
      have hlive : ∀ p ∈ rs, h.live p := fun p hp => hm.live p (List.mem_append_right _ hp)
      have hloop : finishMerge caseSensitive h (n + 1)
          ⟨[].headD 0, rs.headD 0, (init ++ [tail]).headD 0, tail⟩ =
            appendRest h ⟨0, rs.headD 0, (init ++ [tail]).headD 0, tail⟩ (rs.headD 0) :=
        finishMerge_nil hne rfl (Or.inl rfl) (if_neg fun hf => hf rfl) hlive
      rw [hloop, List.nil_merge]
      exact appendRest_eq hm.live hm.nodup hmerged hsecond hne
    | cons q m =>
      have hq : h.live q := hm.live q
        (List.mem_append_right _ (List.mem_append_left _ List.mem_cons_self))
      cases rs with
      | nil =>
        have hlive := hm.live
        have hnodup := hm.nodup
        rw [List.append_nil] at hlive hnodup
        have hloop : finishMerge caseSensitive h (n + 1)
            ⟨(q :: m).headD 0, [].headD 0, (init ++ [tail]).headD 0, tail⟩ =
              appendRest h ⟨q, 0, (init ++ [tail]).headD 0, tail⟩ ((q :: m).headD 0) :=
          finishMerge_nil (List.cons_ne_nil q m) rfl (Or.inr rfl) (if_pos (ne_null hq))
            fun p hp => hlive p (List.mem_append_right _ hp)
        rw [hloop, List.merge_right, List.append_nil]
        exact appendRest_eq hlive hnodup hmerged hfirst (List.cons_ne_nil q m)
      | cons r k =>
        have hr : h.live r := hm.live r
          (List.mem_append_right _ (List.mem_append_right _ List.mem_cons_self))
        have hboth : ¬ (q = 0 ∨ r = 0) := not_or.2 ⟨ne_null hq, ne_null hr⟩
        have hqr : q ≠ r := by
          have := (List.nodup_append.1 (List.nodup_append.1 hm.nodup).2.1).2.2
          exact this q List.mem_cons_self r List.mem_cons_self
        have hresult : (init ++ [tail]).headD 0 ≠ 0 := by
          cases init with
          | nil => exact ne_null (hm.live tail List.mem_cons_self)
          | cons p init => exact ne_null (hm.live p List.mem_cons_self)
        rw [List.length_cons, List.length_cons] at hn
        rw [List.cons_merge_cons]
        by_cases hlt : byName h.string caseSensitive q r = true
        · obtain ⟨h', hset, h'', hset', hnext, hm', hrel⟩ := hm.pick
          have hq'' : h''.live q := by
            rw [hrel.live]
            exact hq
          obtain ⟨h₃, hfinish, hseg, hrel'⟩ := ih hm' (List.append_ne_nil_of_right_ne_nil m
            (List.cons_ne_nil r k)) (by rw [List.length_cons]; omega)
          rw [hrel.string] at hseg
          rw [headD_concat_concat] at hfinish
          refine ⟨h₃, ?_, ?_, hrel.trans hrel' (fun _ hp => hp) ?_⟩
          · generalize (init ++ [tail]).headD 0 = result at hresult hfinish ⊢
            rw [finishMerge] at hfinish ⊢
            rw [mergeLoop, List.headD_cons, List.headD_cons, if_neg hboth, comesBefore_eq hq hr]
            simpa [hlt, hresult, hset, hset', getNext, hq'', hnext] using hfinish
          · rw [if_pos hlt]
            rwa [List.append_assoc _ [q]] at hseg
          · intro p hp
            simpa using hp
        · obtain ⟨h', hset, h'', hset', hnext, hm', hrel⟩ := hm.swap.pick
          have hr'' : h''.live r := by
            rw [hrel.live]
            exact hr
          obtain ⟨h₃, hfinish, hseg, hrel'⟩ := ih hm'.swap (List.append_ne_nil_of_left_ne_nil
            (List.cons_ne_nil q m) k) (by rw [List.length_cons]; omega)
          rw [hrel.string] at hseg
          rw [headD_concat_concat] at hfinish
          refine ⟨h₃, ?_, ?_, hrel.trans hrel' ?_ ?_⟩
          · generalize (init ++ [tail]).headD 0 = result at hresult hfinish ⊢
            rw [finishMerge] at hfinish ⊢
            rw [mergeLoop, List.headD_cons, List.headD_cons, if_neg hboth, comesBefore_eq hq hr]
            simpa [hlt, hresult, hset, hset', getNext, hr'', hnext, hqr] using hfinish
          · rw [if_neg hlt]
            rwa [List.append_assoc _ [r]] at hseg
          · intro p hp
            simp only [List.mem_append, List.mem_cons] at hp ⊢
            tauto
          · intro p hp
            simp only [List.mem_append, List.mem_cons] at hp ⊢
            tauto

/-- The first item is the smaller one of the two heads, and keeps its `prev`. -/
theorem mergeLists_eq {q r : Ptr} {m k : List Ptr} {c d : Ptr}
    (hlive : ∀ p ∈ (q :: m) ++ (r :: k), h.live p) (hnodup : ((q :: m) ++ (r :: k)).Nodup)
    (hfirst : Segment h.next h.prev c (q :: m) 0) (hsecond : Segment h.next h.prev d (r :: k) 0)
    (hn : m.length + k.length + 2 ≤ n) (caseSensitive : Bool) :
    ∃ h', mergeLists h caseSensitive n q r =
        some (h', ((q :: m).merge (r :: k) (byName h.string caseSensitive)).headD 0) ∧
      Segment h'.next h'.prev (if byName h.string caseSensitive q r then c else d)
        ((q :: m).merge (r :: k) (byName h.string caseSensitive)) 0 ∧
      Relinks h h' ((q :: m) ++ (r :: k)) := by
  have hq := hlive q (List.mem_append_left _ List.mem_cons_self)
  have hr := hlive r (List.mem_append_right _ List.mem_cons_self)
  have hboth : ¬ (q = 0 ∨ r = 0) := not_or.2 ⟨ne_null hq, ne_null hr⟩
  have hqr : q ≠ r := (List.nodup_append.1 hnodup).2.2 q List.mem_cons_self r List.mem_cons_self
  have hloop : mergeLists h caseSensitive n q r =
      finishMerge caseSensitive h (n + 1) ⟨q, r, 0, 0⟩ :=
    rfl
  rw [hloop, List.cons_merge_cons]
  by_cases hlt : byName h.string caseSensitive q r = true
  · have hm : Merged h c [] q m (r :: k) := ⟨hlive, hnodup,
      ⟨m.headD 0, Segment.singleton_iff.2 ⟨hfirst.1, hfirst.2.1⟩⟩, ⟨q, hfirst.2.2⟩, ⟨d, hsecond⟩⟩
    obtain ⟨h', hfinish, hseg, hrel⟩ := finishMerge_eq (n := n) hm
      (List.append_ne_nil_of_right_ne_nil m (List.cons_ne_nil r k))
        (by rw [List.length_cons]; omega)
    rw [if_pos hlt, if_pos hlt]
    refine ⟨h', ?_, hseg, hrel⟩
    have hnext : h.next q = m.headD 0 := hfirst.2.1
    rw [finishMerge] at hfinish ⊢
    rw [mergeLoop, if_neg hboth, comesBefore_eq hq hr]
    simpa [hlt, getNext, hq, hnext] using hfinish
  · have hm : Merged h d [] r k (q :: m) := by
      refine ⟨?_, ?_, ⟨k.headD 0, Segment.singleton_iff.2 ⟨hsecond.1, hsecond.2.1⟩⟩,
        ⟨r, hsecond.2.2⟩, ⟨c, hfirst⟩⟩
      · intro p hp
        apply hlive p
        simp only [List.mem_append, List.mem_cons, List.nil_append] at hp ⊢
        tauto
      · have hperm : ((r :: k) ++ (q :: m)).Perm ((q :: m) ++ (r :: k)) := List.perm_append_comm
        exact hperm.nodup_iff.2 hnodup
    obtain ⟨h', hfinish, hseg, hrel⟩ := finishMerge_eq (n := n) hm.swap
      (List.append_ne_nil_of_left_ne_nil (List.cons_ne_nil q m) k) (by rw [List.length_cons]; omega)
    rw [if_neg hlt, if_neg hlt]
    refine ⟨h', ?_, hseg, ⟨hrel.live, hrel.string, hrel.child, ?_, ?_⟩⟩
    · have hnext : h.next r = k.headD 0 := hsecond.2.1
      rw [finishMerge] at hfinish ⊢
      rw [mergeLoop, if_neg hboth, comesBefore_eq hq hr]
      simpa [hlt, getNext, hr, hnext, hqr] using hfinish
    · intro p hp
      apply hrel.next
      simp only [List.mem_append, List.mem_cons, List.nil_append] at hp ⊢
      tauto
    · intro p hp
      apply hrel.prev
      simp only [List.mem_append, List.mem_cons, List.nil_append] at hp ⊢
      tauto

/-! ### The whole sort -/

/-- What is sorted strictly is left as it is. -/
theorem mergeSort_of_isChain {string : Ptr → Option Str}
    (hchain : List.IsChain (fun p q => byName string caseSensitive p q = true) ps) :
    ps.mergeSort (byName string caseSensitive) = ps := by
  have htrans : IsTrans Ptr fun p q => byName string caseSensitive p q = true :=
    ⟨fun _ _ _ => before_trans⟩
  exact List.mergeSort_of_pairwise (List.isChain_iff_pairwise.1 hchain)

/-- The two halves of a list that is not sorted, when the sort is right for shorter lists. -/
theorem sortHalves_eq (hlive : ∀ p ∈ ps, h.live p) (hnodup : ps.Nodup)
    (hlinked : Segment h.next h.prev a ps 0) (hn : ps.length < n + 1) (hlen : 2 ≤ ps.length)
    (ih : ∀ {h : Memory} {ps : List Ptr} {a : Ptr}, (∀ p ∈ ps, h.live p) → ps.Nodup →
      Segment h.next h.prev a ps 0 → ps.length < n →
        ∃ h', sortList caseSensitive n h (ps.headD 0) =
            some (h', (ps.mergeSort (byName h.string caseSensitive)).headD 0) ∧
          Segment h'.next h'.prev
            (if (ps.mergeSort (byName h.string caseSensitive)).head? = ps.head? then a else 0)
            (ps.mergeSort (byName h.string caseSensitive)) 0 ∧
          Relinks h h' ps) :
    ∃ second h₁ h₂ h₃ h' first' second',
      middleLoop h (n + 1) (ps.headD 0) (ps.headD 0) = some second ∧
      splitBefore h second = some h₁ ∧
      sortList caseSensitive n h₁ (ps.headD 0) = some (h₂, first') ∧
      sortList caseSensitive n h₂ second = some (h₃, second') ∧
      mergeLists h₃ caseSensitive n first' second' =
        some (h', (ps.mergeSort (byName h.string caseSensitive)).headD 0) ∧
      Segment h'.next h'.prev
        (if (ps.mergeSort (byName h.string caseSensitive)).head? = ps.head? then a else 0)
        (ps.mergeSort (byName h.string caseSensitive)) 0 ∧
      Relinks h h' ps := by
  have hmiddle := middleLoop_eq hlive hlive hlinked hlinked (by omega) hn
  have hsplit : ps.take ((ps.length + 1) / 2) ++ ps.drop ((ps.length + 1) / 2) = ps :=
    List.take_append_drop _ _
  have hsorted := StrictMerge.mergeSort_split (byName h.string caseSensitive) hlen
  have hlen₁ : (ps.take ((ps.length + 1) / 2)).length = (ps.length + 1) / 2 := by
    rw [List.length_take]
    omega
  have hlen₂ : (ps.drop ((ps.length + 1) / 2)).length = ps.length / 2 := by
    rw [List.length_drop]
    omega
  generalize ps.take ((ps.length + 1) / 2) = l₁ at *
  generalize ps.drop ((ps.length + 1) / 2) = l₂ at *
  have hne₁ : l₁ ≠ [] := List.ne_nil_of_length_pos (by omega)
  have hne₂ : l₂ ≠ [] := List.ne_nil_of_length_pos (by omega)
  have hhead : ps.headD 0 = l₁.headD 0 ∧ ps.head? = l₁.head? := by
    obtain ⟨p, m, rfl⟩ := List.exists_cons_of_ne_nil hne₁
    rw [← hsplit]
    exact ⟨rfl, rfl⟩
  rw [← hsplit] at hlive hnodup hlinked
  obtain ⟨hn₁, hn₂, hdisjoint⟩ := List.nodup_append.1 hnodup
  obtain ⟨h₁, hbefore, hseg₁, hseg₂, hrel⟩ := splitBefore_eq hlive hnodup hne₁ hne₂ hlinked
  have hlive₁ : ∀ p ∈ l₁ ++ l₂, h₁.live p := by
    rw [hrel.live]
    exact hlive
  obtain ⟨h₂, hsort₁, hs₁, hrel₁⟩ := ih (fun p hp => hlive₁ p (List.mem_append_left _ hp)) hn₁ hseg₁
    (by omega)
  have hseg₂' := hrel₁.segment hseg₂ fun p hp hp' => hdisjoint p hp' p hp rfl
  have hlive₂ : ∀ p ∈ l₁ ++ l₂, h₂.live p := by
    rw [hrel₁.live]
    exact hlive₁
  obtain ⟨h₃, hsort₂, hs₂, hrel₂⟩ := ih (fun p hp => hlive₂ p (List.mem_append_right _ hp)) hn₂
    hseg₂' (by omega)
  rw [hrel.string] at hsort₁ hs₁
  rw [hrel₁.string, hrel.string] at hsort₂ hs₂
  have hperm₁ := List.mergeSort_perm l₁ (byName h.string caseSensitive)
  have hperm₂ := List.mergeSort_perm l₂ (byName h.string caseSensitive)
  generalize l₁.mergeSort (byName h.string caseSensitive) = s₁ at *
  generalize l₂.mergeSort (byName h.string caseSensitive) = s₂ at *
  obtain ⟨q, m, rfl⟩ := List.exists_cons_of_ne_nil (l := s₁) fun hnil => hne₁ (by
    rw [hnil] at hperm₁
    exact hperm₁.symm.eq_nil)
  obtain ⟨r, k, rfl⟩ := List.exists_cons_of_ne_nil (l := s₂) fun hnil => hne₂ (by
    rw [hnil] at hperm₂
    exact hperm₂.symm.eq_nil)
  have hmem : ∀ p, p ∈ (q :: m) ++ (r :: k) ↔ p ∈ l₁ ++ l₂ := fun p =>
    (hperm₁.append hperm₂).mem_iff
  have hlive₃ : ∀ p ∈ (q :: m) ++ (r :: k), h₃.live p := by
    rw [hrel₂.live]
    exact fun p hp => hlive₂ p ((hmem p).1 hp)
  have hs₁' := hrel₂.segment hs₁ fun p hp hp' => hdisjoint p (hperm₁.mem_iff.1 hp) p hp' rfl
  have hcount : m.length + k.length + 2 ≤ n := by
    have h₁ := hperm₁.length_eq
    have h₂ := hperm₂.length_eq
    rw [List.length_cons] at h₁ h₂
    omega
  obtain ⟨h', hmerge, hs', hrel'⟩ := mergeLists_eq hlive₃
    ((hperm₁.append hperm₂).nodup_iff.2 hnodup) hs₁' hs₂ hcount caseSensitive
  have hstring : h₃.string = h.string := hrel₂.string.trans (hrel₁.string.trans hrel.string)
  rw [hstring, ← hsorted] at hmerge hs'
  refine ⟨l₂.headD 0, h₁, h₂, h₃, h', q, r, hmiddle, hbefore, ?_, hsort₂, hmerge, ?_, ?_⟩
  · rw [hhead.1]
    exact hsort₁
  · have hfirst : (if byName h.string caseSensitive q r = true then
        if (q :: m).head? = l₁.head? then a else 0 else
          if (r :: k).head? = l₂.head? then 0 else 0) =
        if (ps.mergeSort (byName h.string caseSensitive)).head? = ps.head? then a else 0 := by
      rw [hsorted, List.cons_merge_cons, hhead.2]
      by_cases hlt : byName h.string caseSensitive q r = true
      · rw [if_pos hlt, if_pos hlt]
        rfl
      · obtain ⟨p, l₁', rfl⟩ := List.exists_cons_of_ne_nil hne₁
        have hrp : r ≠ p := fun he =>
          hdisjoint p List.mem_cons_self r (hperm₂.mem_iff.1 List.mem_cons_self) he.symm
        have hsome : (r :: (q :: m).merge k (byName h.string caseSensitive)).head? ≠
            (p :: l₁').head? := fun he => hrp (Option.some.inj he)
        rw [if_neg hlt, if_neg hlt, if_neg hsome, ite_self]
    rw [← hfirst]
    exact hs'
  · have hps : ∀ p, p ∈ l₁ ++ l₂ → p ∈ ps := fun p hp => hsplit ▸ hp
    have h₁₂ := hrel.trans hrel₁ hps fun p hp => hps p (List.mem_append_left _ hp)
    have h₁₃ := h₁₂.trans hrel₂ (fun p hp => hp) fun p hp => hps p (List.mem_append_right _ hp)
    exact h₁₃.trans hrel' (fun p hp => hp) fun p hp => hps p ((hmem p).1 hp)

theorem sortList_eq (hlive : ∀ p ∈ ps, h.live p) (hnodup : ps.Nodup)
    (hlinked : Segment h.next h.prev a ps 0) (hn : ps.length < n) (caseSensitive : Bool) :
    ∃ h', sortList caseSensitive n h (ps.headD 0) =
        some (h', (ps.mergeSort (byName h.string caseSensitive)).headD 0) ∧
      Segment h'.next h'.prev
        (if (ps.mergeSort (byName h.string caseSensitive)).head? = ps.head? then a else 0)
        (ps.mergeSort (byName h.string caseSensitive)) 0 ∧
      Relinks h h' ps := by
  induction n generalizing h ps a with
  | zero => exact absurd hn (Nat.not_lt_zero _)
  | succ n ih =>
    rw [sortList]
    have hsame : ps.mergeSort (byName h.string caseSensitive) = ps →
        ∃ h', some (h, ps.headD 0) =
            some (h', (ps.mergeSort (byName h.string caseSensitive)).headD 0) ∧
          Segment h'.next h'.prev
            (if (ps.mergeSort (byName h.string caseSensitive)).head? = ps.head? then a else 0)
            (ps.mergeSort (byName h.string caseSensitive)) 0 ∧ Relinks h h' ps := by
      intro hsorted
      rw [hsorted, if_pos rfl]
      exact ⟨h, rfl, hlinked, Relinks.refl h ps⟩
    cases hps : ps with
    | nil =>
      rw [hps] at hsame
      rw [List.headD_nil, if_pos rfl]
      exact hsame List.mergeSort_nil
    | cons p tail =>
      have hp := hlive p (hps ▸ List.mem_cons_self)
      have hnext : h.next p = tail.headD 0 := by
        rw [hps] at hlinked
        exact hlinked.2.1
      rw [List.headD_cons, if_neg (ne_null hp), getNext, if_pos hp, Option.bind_eq_bind,
        Option.bind_some, hnext]
      cases htail : tail with
      | nil =>
        rw [hps, htail] at hsame
        rw [List.headD_nil, if_pos rfl]
        exact hsame (List.mergeSort_singleton p)
      | cons q rest =>
        have hq := hlive q (hps ▸ htail ▸ List.mem_cons_of_mem p List.mem_cons_self)
        rw [List.headD_cons, if_neg (ne_null hq)]
        have hhead : p = ps.headD 0 := by rw [hps, List.headD_cons]
        rw [← htail, ← hps, hhead]
        rcases sortedLoop_sorted hlive hlinked hn caseSensitive with
          ⟨hloop, hchain⟩ | hloop
        · rw [hloop]
          exact hsame (mergeSort_of_isChain hchain)
        · have hlen : 2 ≤ ps.length := by
            rw [hps, htail, List.length_cons, List.length_cons]
            omega
          obtain ⟨second, h₁, h₂, h₃, h', first', second', hmiddle, hbefore, hsort₁, hsort₂, hmerge,
            hseg, hrel⟩ := sortHalves_eq hlive hnodup hlinked hn hlen
              fun hlive hnodup hlinked hn => ih hlive hnodup hlinked hn
          refine ⟨h', ?_, hseg, hrel⟩
          simp only [hloop, hmiddle, hbefore, hsort₁, hsort₂, Option.bind_eq_bind, Option.bind_some]
          exact hmerge

/-- `sort_object` gives the members in their order, and frames the other items. -/
theorem sortObject_eq {object : Ptr} (hc : Children h object ps) (caseSensitive : Bool) :
    ∃ h', sortObject caseSensitive ps.length h object = some h' ∧
      h'.child object = (ps.mergeSort (byName h.string caseSensitive)).headD 0 ∧
      Segment h'.next h'.prev
        (if (ps.mergeSort (byName h.string caseSensitive)).head? = ps.head? then ps.getLastD 0
          else 0)
        (ps.mergeSort (byName h.string caseSensitive)) 0 ∧
      Frame h h' object ps := by
  obtain ⟨h', hsort, hseg, hrel⟩ := sortList_eq hc.live hc.nodup hc.linked
    (Nat.lt_succ_self _) caseSensitive
  have hlive : h'.live object := by
    rw [hrel.live]
    exact hc.parent_live
  refine ⟨{ h' with
    child := Function.update h'.child object
      ((ps.mergeSort (byName h.string caseSensitive)).headD 0) }, ?_, Function.update_self .., hseg,
    ⟨hrel.live, hrel.string, ?_, hrel.next, hrel.prev⟩⟩
  · rw [sortObject, if_neg (ne_null hc.parent_live), getChild, if_pos hc.parent_live, hc.child,
      Option.bind_eq_bind, Option.bind_some, hsort, Option.bind_eq_bind, Option.bind_some]
    exact if_pos hlive
  · intro p hp
    exact (Function.update_of_ne hp _ _).trans (congrFun hrel.child p)

end Siblings
end CFunction
