import CFunction.Json.Proofs.SortLinks

/-!
# Adding a member to a sorted object

`sort_object` sorts the members for whoever follows `next`. Adding an item relies on `prev` of the
first member, which the sort does not set, and so the item goes behind the members only when the
first and the last member were the first and the last one before the sort.
-/

namespace CFunction
namespace Siblings

open Json

variable {h h' : Memory} {object a b x : Ptr} {ps qs : List Ptr}

/-- The items that are found by their index. -/
def Visits (h : Memory) (object : Ptr) (ps : List Ptr) : Prop :=
  ∀ index, getArrayItem h (h.child object) index = some (ps[index]?.getD 0)

theorem visits_of_segment (hchild : h.child object = ps.headD 0)
    (hlinked : Segment h.next h.prev a ps 0) (hlive : ∀ p ∈ ps, h.live p) :
    Visits h object ps := by
  intro index
  rw [hchild]
  exact getArrayItem_eq hlive hlinked index

/-- Two lists that are both found are one list. -/
theorem Visits.unique (hp : Visits h object ps) (hq : Visits h object qs) (hps : ∀ p ∈ ps, p ≠ 0)
    (hqs : ∀ p ∈ qs, p ≠ 0) : ps = qs := by
  apply List.ext_getElem?
  intro i
  have hsame : ps[i]?.getD 0 = qs[i]?.getD 0 :=
    Option.some.inj ((hp i).symm.trans (hq i))
  cases hpi : ps[i]? with
  | none =>
    cases hqi : qs[i]? with
    | none => rfl
    | some q =>
      rw [hpi, hqi] at hsame
      exact absurd hsame.symm (hqs q (List.mem_of_getElem? hqi))
  | some p =>
    cases hqi : qs[i]? with
    | none =>
      rw [hpi, hqi] at hsame
      exact absurd hsame (hps p (List.mem_of_getElem? hpi))
    | some q =>
      rw [hpi, hqi] at hsame
      exact congrArg some hsame

theorem strictOn_byName (string : Ptr → Option Str) (caseSensitive : Bool) :
    StrictMerge.StrictOn (byName string caseSensitive) fun p => (string p).isSome where
  asymm p q hp hq := by
    obtain ⟨s, hs⟩ := Option.isSome_iff_exists.1 hp
    obtain ⟨t, ht⟩ := Option.isSome_iff_exists.1 hq
    rw [byName, byName, hs, ht]
    exact before_asymm
  trans p q r hp hq hr := by
    obtain ⟨s, hs⟩ := Option.isSome_iff_exists.1 hp
    obtain ⟨t, ht⟩ := Option.isSome_iff_exists.1 hq
    obtain ⟨u, hu⟩ := Option.isSome_iff_exists.1 hr
    rw [byName, byName, byName, hs, ht, hu]
    exact not_before_trans

theorem ne_null_of_mem_concat (hlive : ∀ p ∈ ps, h.live p) (hx : h.live x) :
    ∀ p ∈ ps ++ [x], p ≠ 0 := by
  intro p hp
  rcases List.mem_append.1 hp with hp | hp
  · exact ne_null (hlive p hp)
  · rw [List.mem_singleton.1 hp]
    exact ne_null hx

/-- Items that are found exclude the same items with another one behind them. -/
theorem Visits.not_concat (hv : Visits h object ps) (hlive : ∀ p ∈ ps, h.live p) (hx : h.live x) :
    ¬ Visits h object (ps ++ [x]) := by
  intro hgrown
  have hsame := hv.unique hgrown (fun p hp => ne_null (hlive p hp)) (ne_null_of_mem_concat hlive hx)
  have hlen := congrArg List.length hsame
  rw [List.length_append, List.length_singleton] at hlen
  omega

/-- An item is lost where the first member knows no last one: the call gives `true` and changes
nothing. -/
theorem addItemToArray_lost (hparent : h.live object) (hfirst : h.live (h.child object))
    (hprev : h.prev (h.child object) = 0) (hx : h.live x) (hne : object ≠ x) :
    addItemToArray h object x = some (h, true) := by
  have hparent0 := ne_null hparent
  have hx0 := ne_null hx
  rw [addItemToArray, if_neg (by tauto), getChild, if_pos hparent]
  simp [ne_null hfirst, getPrev, hfirst, hprev]

/-- The last member of a list whose first member takes `last` for it. -/
theorem addItemToArray_behind {sorted : List Ptr} {last : Ptr} (hparent : h.live object)
    (hchild : h.child object = sorted.headD 0) (hlinked : Segment h.next h.prev last sorted 0)
    (hlive : ∀ p ∈ sorted, h.live p) (hnodup : sorted.Nodup) (hlast : last ∈ sorted)
    (hx : h.live x) (hne : object ≠ x) (hfresh : x ∉ sorted) (hloose : h.next x = 0) :
    ∃ h', addItemToArray h object x = some (h', true) ∧
      (Visits h' object (sorted ++ [x]) ↔ sorted.getLast? = some last) := by
  obtain ⟨init, rest, rfl⟩ := List.append_of_mem hlast
  have hsplit : init ++ last :: rest = (init ++ [last]) ++ rest := by simp
  have hlastD : ∀ a, (init ++ [last]).getLastD a = last := by
    intro a
    simp
  have hsub : ∀ p ∈ init ++ [last], p ∈ init ++ last :: rest := by
    intro p hp
    rw [hsplit]
    exact List.mem_append_left rest hp
  have hfirst : (init ++ last :: rest).headD 0 = (init ++ [last]).headD 0 := by
    cases init with
    | nil => rfl
    | cons p init => rfl
  rw [hsplit, Segment.append_iff] at hlinked
  have hknown : Segment h.next h.prev ((init ++ [last]).getLastD 0) (init ++ [last])
      (rest.headD 0) := by
    rw [hlastD]
    exact hlinked.1
  have hnodup' : (init ++ [last]).Nodup := by
    rw [hsplit] at hnodup
    exact (List.nodup_append.1 hnodup).1
  obtain ⟨h', hadd, hc, -⟩ := addItemToArray_known hparent
    (List.append_ne_nil_of_right_ne_nil init (List.cons_ne_nil last [])) (hchild.trans hfirst)
    hknown (fun p hp => hlive p (hsub p hp)) hnodup' hx hne
    (fun hp => hfresh (hsub x hp)) hloose
  have hvisits := visits_of_segment hc.child hc.linked hc.live
  refine ⟨h', hadd, fun hv => ?_, fun hl => ?_⟩
  · have hsame := hvisits.unique hv (fun p hp => hc.ne_null hp) (ne_null_of_mem_concat hlive hx)
    have hinit := (List.append_inj_left' hsame rfl).symm
    rw [hinit]
    simp
  · have hrest : rest = [] := by
      cases rest with
      | nil => rfl
      | cons q m =>
        rw [List.getLast?_append, List.getLast?_cons_cons] at hl
        have hmem : last ∈ q :: m := by
          rw [Option.or_eq_some_iff] at hl
          rcases hl with hl | ⟨hnil, -⟩
          · exact List.mem_of_getLast? hl
          · cases List.getLast?_eq_none_iff.1 hnil
        have := (List.nodup_append.1 hnodup).2.1
        exact absurd hmem (List.nodup_cons.1 this).1
    rw [hrest]
    exact hvisits

/-- Whoever follows `next` finds the members of a sorted object in order, and no member is lost.
An item that is added then is found behind them exactly when the sort left the first and the last
member in their places. -/
theorem add_after_sort (hc : Children h object ps) (hnames : ∀ p ∈ ps, (h.string p).isSome)
    (caseSensitive : Bool) (hx : h.live x) (hne : object ≠ x) (hfresh : x ∉ ps)
    (hloose : h.next x = 0) :
    ∃ h' h'' sorted, sortObject caseSensitive ps.length h object = some h' ∧
      Visits h' object sorted ∧ sorted.Perm ps ∧
      StrictMerge.Sorted (byName h.string caseSensitive) sorted ∧
      addItemToArray h' object x = some (h'', true) ∧
      (Visits h'' object (sorted ++ [x]) ↔
        sorted.head? = ps.head? ∧ sorted.getLast? = ps.getLast?) := by
  obtain ⟨h', hsort, hchild, hseg, hframe⟩ := sortObject_eq hc caseSensitive
  have hperm := List.mergeSort_perm ps (byName h.string caseSensitive)
  have hsorted := StrictMerge.sorted_mergeSort (strictOn_byName h.string caseSensitive) hnames
  generalize ps.mergeSort (byName h.string caseSensitive) = sorted at *
  have hlive : ∀ p ∈ sorted, h'.live p := by
    intro p hp
    rw [hframe.live]
    exact hc.live p (hperm.mem_iff.1 hp)
  have hparent : h'.live object := by
    rw [hframe.live]
    exact hc.parent_live
  have hx' : h'.live x := by
    rw [hframe.live]
    exact hx
  have hloose' : h'.next x = 0 := (hframe.next x hfresh).trans hloose
  have hfresh' : x ∉ sorted := fun hp => hfresh (hperm.mem_iff.1 hp)
  have hnodup : sorted.Nodup := hperm.nodup_iff.2 hc.nodup
  have hvisits := visits_of_segment hchild hseg hlive
  cases hnil : sorted with
  | nil =>
    have hps : ps = [] := by
      rw [hnil] at hperm
      exact hperm.symm.eq_nil
    have hempty : Children h' object [] :=
      ⟨hparent, by rw [hchild, hnil], Segment.nil, fun p hp => absurd hp List.not_mem_nil,
        List.nodup_nil⟩
    obtain ⟨h'', hadd, hc', -⟩ := addItemToArray_eq hempty hx' hne List.not_mem_nil hloose'
    rw [hnil] at hvisits hperm hsorted
    refine ⟨h', h'', [], hsort, hvisits, hperm, hsorted, hadd, iff_of_true ?_ ?_⟩
    · exact visits_of_segment hc'.child hc'.linked hc'.live
    · rw [hps]
      exact ⟨rfl, rfl⟩
  | cons first tail =>
    have hps : ps ≠ [] := fun hp => by
      rw [hp] at hperm
      rw [hperm.eq_nil] at hnil
      cases hnil
    by_cases hhead : sorted.head? = ps.head?
    · rw [if_pos hhead] at hseg
      have hlast : ps.getLast? = some (ps.getLastD 0) := by
        rw [List.getLastD_eq_getLast?]
        cases hl : ps.getLast? with
        | none => exact absurd (List.getLast?_eq_none_iff.1 hl) hps
        | some p => rfl
      have hmem : ps.getLastD 0 ∈ sorted := hperm.mem_iff.2 (List.mem_of_getLast? hlast)
      obtain ⟨h'', hadd, hiff⟩ := addItemToArray_behind hparent hchild hseg hlive hnodup hmem hx'
        hne
        hfresh' hloose'
      refine ⟨h', h'', sorted, hsort, hvisits, hperm, hsorted, hadd, hiff.trans ?_⟩
      rw [hlast]
      exact ⟨fun hl => ⟨hhead, hl⟩, fun hl => hl.2⟩
    · rw [if_neg hhead] at hseg
      have hfirst : h'.child object = first := by
        rw [hchild, hnil]
        rfl
      have hprev : h'.prev first = 0 := by
        rw [hnil] at hseg
        exact hseg.1
      have hadd : addItemToArray h' object x = some (h', true) :=
        addItemToArray_lost hparent (hfirst ▸ hlive first (hnil ▸ List.mem_cons_self))
          (hfirst ▸ hprev) hx' hne
      refine ⟨h', h', sorted, hsort, hvisits, hperm, hsorted, hadd, iff_of_false ?_ ?_⟩
      · exact hvisits.not_concat hlive hx'
      · exact fun hboth => hhead hboth.1

/-- An object 1 with the members 2 and 3, whose names are `"b"` and `"a"`, and a loose item 4. -/
def twoMembers : Memory where
  live p := 1 ≤ p && p ≤ 4
  next p := if p = 2 then 3 else 0
  prev p := if p = 2 then 3 else if p = 3 then 2 else 0
  child p := if p = 1 then 2 else 0
  string p :=
    if p = 2 then some (Str.ofBytes [98]) else if p = 3 then some (Str.ofBytes [97]) else none
  null := rfl

theorem add_after_sort_two :
    ∃ h' h'' sorted, sortObject true 2 twoMembers 1 = some h' ∧ Visits h' 1 sorted ∧
      sorted.Perm [2, 3] ∧ addItemToArray h' 1 4 = some (h'', true) ∧
      (Visits h'' 1 (sorted ++ [4]) ↔ sorted.head? = some 2 ∧ sorted.getLast? = some 3) := by
  have hc : Children twoMembers 1 [2, 3] := by
    refine ⟨rfl, rfl, ⟨rfl, rfl, rfl, rfl, trivial⟩, ?_, by decide⟩
    intro p hp
    rcases List.mem_cons.1 hp with rfl | hp
    · rfl
    · rw [List.mem_singleton.1 hp]
      rfl
  have hnames : ∀ p ∈ [2, 3], (twoMembers.string p).isSome := by
    intro p hp
    rcases List.mem_cons.1 hp with rfl | hp
    · rfl
    · rw [List.mem_singleton.1 hp]
      rfl
  obtain ⟨h', h'', sorted, hsort, hvisits, hperm, -, hadd, hiff⟩ :=
    add_after_sort hc hnames true (x := 4) rfl (by decide) (by decide) rfl
  exact ⟨h', h'', sorted, hsort, hvisits, hperm, hadd, hiff⟩

end Siblings
end CFunction
