import CFunction.Json.MergePatch
import CFunction.Misc.MergePatch
import Mathlib.Data.List.Nodup

/-!
# What a merge patch does

To a merge patch an object is what stands under each of its names, and the order of the members
does not count. Where no two members have the same name, `merge_patch` does what the patch means.
-/

namespace CFunction
namespace Json

open CString MergePatch

variable {ν β : Type} {cs : Bool} {child child' : List (Str × Item ν)} {key : Bytes} {name : Str}

/-! ### The meaning of an item -/

/-- A name the way it is compared. -/
def keyOf (cs : Bool) (member : Str × β) : Bytes := spelling cs member.1.val

mutual

def meaning (cs : Bool) : Item ν → Doc Bytes (Item ν)
  | .null => .null
  | .object child => .object (meaningMembers cs child)
  | item => .value item

/-- The first member with a name stands for it. -/
def meaningMembers (cs : Bool) : List (Str × Item ν) → Bytes → Doc Bytes (Item ν)
  | [] => fun _ => .absent
  | (name, item) :: rest => fun key =>
    if spelling cs name.val = key then meaning cs item else meaningMembers cs rest key

end

/-- `NULL` is absent. -/
def meaningOf (cs : Bool) : Option (Item ν) → Doc Bytes (Item ν)
  | none => .absent
  | some item => meaning cs item

mutual

/-- No object has two members with the same name. -/
def Distinct (cs : Bool) : Item ν → Prop
  | .object child => (child.map (keyOf cs)).Nodup ∧ DistinctMembers cs child
  | _ => True

def DistinctMembers (cs : Bool) : List (Str × Item ν) → Prop
  | [] => True
  | (_, item) :: rest => Distinct cs item ∧ DistinctMembers cs rest

end

theorem distinctMembers_iff : DistinctMembers cs child ↔ ∀ m ∈ child, Distinct cs m.2 := by
  induction child with
  | nil => exact iff_of_true trivial fun _ h => absurd h List.not_mem_nil
  | cons m rest ih => rw [DistinctMembers, ih, List.forall_mem_cons]

theorem distinct_object_iff :
    Distinct cs (.object child) ↔ (child.map (keyOf cs)).Nodup ∧ ∀ m ∈ child, Distinct cs m.2 := by
  rw [Distinct, distinctMembers_iff]

theorem isNull_iff {item : Item ν} : item.isNull = true ↔ item = .null := by
  cases item with
  | null => exact iff_of_true rfl rfl
  | _ => exact iff_of_false Bool.false_ne_true nofun

theorem meaning_eq_null_iff {item : Item ν} : meaning cs item = .null ↔ item = .null := by
  cases item with
  | null => exact iff_of_true rfl rfl
  | _ => exact iff_of_false nofun nofun

theorem member_meaningOf (target : Option (Item ν)) :
    (meaningOf cs target).member = meaningMembers cs (objectChild target) := by
  cases target with
  | none => rfl
  | some item =>
    cases item with
    | _ => rfl

theorem distinct_objectChild {target : Option (Item ν)} (h : ∀ t ∈ target, Distinct cs t) :
    ((objectChild target).map (keyOf cs)).Nodup ∧ ∀ m ∈ objectChild target, Distinct cs m.2 := by
  cases target with
  | none => exact ⟨List.nodup_nil, fun _ hm => absurd hm List.not_mem_nil⟩
  | some item =>
    have hitem := h item rfl
    cases item with
    | object child => exact distinct_object_iff.1 hitem
    | _ => exact ⟨List.nodup_nil, fun _ hm => absurd hm List.not_mem_nil⟩

/-! ### What stands under a name -/

theorem meaningMembers_cons (m : Str × Item ν) (rest : List (Str × Item ν)) :
    meaningMembers cs (m :: rest) key =
      if keyOf cs m = key then meaning cs m.2 else meaningMembers cs rest key :=
  rfl

theorem meaningMembers_pair (name : Str) (item : Item ν) (rest : List (Str × Item ν)) :
    meaningMembers cs ((name, item) :: rest) key =
      if spelling cs name.val = key then meaning cs item else meaningMembers cs rest key :=
  rfl

theorem meaningMembers_of_notMem (h : key ∉ child.map (keyOf cs)) :
    meaningMembers cs child key = .absent := by
  induction child with
  | nil => rfl
  | cons m rest ih =>
    rw [List.map_cons] at h
    rw [meaningMembers_cons, if_neg (List.ne_of_not_mem_cons h).symm]
    exact ih (List.not_mem_of_not_mem_cons h)

theorem meaningMembers_of_mem (hd : (child.map (keyOf cs)).Nodup) {m : Str × Item ν}
    (hm : m ∈ child) : meaningMembers cs child (keyOf cs m) = meaning cs m.2 := by
  induction child with
  | nil => cases hm
  | cons n rest ih =>
    rw [List.map_cons, List.nodup_cons] at hd
    rw [meaningMembers_cons]
    rcases List.mem_cons.1 hm with rfl | hm
    · exact if_pos rfl
    · have hne : keyOf cs n ≠ keyOf cs m := fun he =>
        hd.1 (he.symm ▸ List.mem_map_of_mem hm)
      rw [if_neg hne]
      exact ih hd.2 hm

/-- The order of the members does not count. -/
theorem meaningMembers_perm (hperm : child.Perm child') (hd : (child.map (keyOf cs)).Nodup) :
    meaningMembers cs child = meaningMembers cs child' := by
  funext key
  have hd' : (child'.map (keyOf cs)).Nodup := (hperm.map (keyOf cs)).nodup_iff.1 hd
  by_cases hkey : key ∈ child.map (keyOf cs)
  · obtain ⟨m, hm, rfl⟩ := List.mem_map.1 hkey
    rw [meaningMembers_of_mem hd hm, meaningMembers_of_mem hd' (hperm.mem_iff.1 hm)]
  · have hkey' : key ∉ child'.map (keyOf cs) := fun h => hkey ((hperm.map (keyOf cs)).mem_iff.2 h)
    rw [meaningMembers_of_notMem hkey, meaningMembers_of_notMem hkey']

theorem sameName_iff {m : Str × Item ν} :
    sameName cs name m = true ↔ keyOf cs m = spelling cs name.val := by
  rw [sameName, decide_eq_true_iff, eq_comm, keyOf]

theorem meaningOf_detached (child : List (Str × Item ν)) (name : Str) :
    meaningOf cs (detachItem cs child name).1 = meaningMembers cs child (spelling cs name.val) := by
  induction child with
  | nil => rfl
  | cons m rest ih =>
    rw [meaningMembers_cons, detachItem]
    by_cases hm : keyOf cs m = spelling cs name.val
    · rw [if_pos hm, List.find?_cons_of_pos (sameName_iff.2 hm)]
      rfl
    · rw [if_neg hm, List.find?_cons_of_neg fun h => hm (sameName_iff.1 h)]
      exact ih

theorem left_sublist (cs : Bool) (child : List (Str × Item ν)) (name : Str) :
    (detachItem cs child name).2.Sublist child :=
  List.eraseP_sublist

theorem notMem_left (hd : (child.map (keyOf cs)).Nodup) (name : Str) :
    spelling cs name.val ∉ (detachItem cs child name).2.map (keyOf cs) := by
  induction child with
  | nil => exact List.not_mem_nil
  | cons m rest ih =>
    rw [List.map_cons, List.nodup_cons] at hd
    rw [detachItem]
    by_cases hm : keyOf cs m = spelling cs name.val
    · rw [List.eraseP_cons_of_pos (sameName_iff.2 hm), ← hm]
      exact hd.1
    · rw [List.eraseP_cons_of_neg fun h => hm (sameName_iff.1 h), List.map_cons]
      exact fun h => (List.mem_cons.1 h).elim (Ne.symm hm) (ih hd.2)

/-- A detached member leaves the others alone. -/
theorem meaningMembers_left (hne : key ≠ spelling cs name.val) (child : List (Str × Item ν)) :
    meaningMembers cs (detachItem cs child name).2 key = meaningMembers cs child key := by
  induction child with
  | nil => rfl
  | cons m rest ih =>
    rw [detachItem]
    by_cases hm : keyOf cs m = spelling cs name.val
    · rw [List.eraseP_cons_of_pos (sameName_iff.2 hm), meaningMembers_cons,
        if_neg fun he => hne (he.symm.trans hm)]
    · rw [List.eraseP_cons_of_neg fun h => hm (sameName_iff.1 h), meaningMembers_cons,
        meaningMembers_cons]
      split
      · rfl
      · exact ih

theorem meaningMembers_added (hnew : spelling cs name.val ∉ child.map (keyOf cs)) (item : Item ν) :
    meaningMembers cs (addItem child name item) key =
      if spelling cs name.val = key then meaning cs item else meaningMembers cs child key := by
  induction child with
  | nil => rfl
  | cons m rest ih =>
    rw [List.map_cons] at hnew
    rw [addItem, List.cons_append, meaningMembers_cons, meaningMembers_cons]
    by_cases hm : keyOf cs m = key
    · have hne : spelling cs name.val ≠ key := fun he =>
        hnew (he.trans hm.symm ▸ List.mem_cons_self)
      rw [if_pos hm, if_pos hm, if_neg hne]
    · rw [if_neg hm, if_neg hm]
      exact ih (List.not_mem_of_not_mem_cons hnew)

/-! ### Merging -/

/-- A result that means `doc`. -/
structure Means (cs : Bool) (child : List (Str × Item ν)) (doc : Bytes → Doc Bytes (Item ν)) :
    Prop where
  keys : (child.map (keyOf cs)).Nodup
  items : ∀ m ∈ child, Distinct cs m.2
  meaning : meaningMembers cs child = doc

theorem mergeMembers_cons (target rest : List (Str × Item ν)) (name : Str) (patch : Item ν) :
    mergeMembers cs target ((name, patch) :: rest) =
      if patch.isNull then mergeMembers cs (detachItem cs target name).2 rest
      else mergeMembers cs (addItem (detachItem cs target name).2 name
        (mergePatch cs (detachItem cs target name).1 patch)) rest := by
  rw [mergeMembers]

/-- The loop over the members of a patch, when the patch of each of them does its work. -/
theorem mergeMembers_means {patchChild target : List (Str × Item ν)}
    (hmerge : ∀ m ∈ patchChild, ∀ old : Option (Item ν), (∀ t ∈ old, Distinct cs t) →
      Distinct cs (mergePatch cs old m.2) ∧
        Json.meaning cs (mergePatch cs old m.2) = (meaningOf cs old).merge (Json.meaning cs m.2))
    (hpatch : (patchChild.map (keyOf cs)).Nodup) (htarget : (target.map (keyOf cs)).Nodup)
    (hitems : ∀ m ∈ target, Distinct cs m.2) :
    Means cs (mergeMembers cs target patchChild) fun key =>
      (meaningMembers cs target key).apply (meaningMembers cs patchChild key) := by
  induction patchChild generalizing target with
  | nil => exact ⟨htarget, hitems, rfl⟩
  | cons m rest ih =>
    obtain ⟨name, patch⟩ := m
    rw [List.map_cons, List.nodup_cons] at hpatch
    have hrest : meaningMembers cs rest (spelling cs name.val) = .absent :=
      meaningMembers_of_notMem hpatch.1
    have hsub := left_sublist cs target name
    have hleft : ((detachItem cs target name).2.map (keyOf cs)).Nodup :=
      htarget.sublist (hsub.map (keyOf cs))
    have hleftItems : ∀ m ∈ (detachItem cs target name).2, Distinct cs m.2 :=
      fun m hm => hitems m (hsub.subset hm)
    have hgone := notMem_left htarget name
    have hmerge' := fun m hm => hmerge m (List.mem_cons_of_mem (name, patch) hm)
    rw [mergeMembers_cons]
    split
    · -- the member is removed
      rename_i hnull
      obtain rfl := isNull_iff.1 hnull
      obtain ⟨hkeys, hdist, hmeaning⟩ := ih hmerge' hpatch.2 hleft hleftItems
      refine ⟨hkeys, hdist, hmeaning.trans (funext fun key => ?_)⟩
      rw [meaningMembers_pair]
      by_cases hkey : spelling cs name.val = key
      · rw [if_pos hkey, ← hkey, hrest, meaningMembers_of_notMem hgone]
        rfl
      · rw [if_neg hkey, meaningMembers_left (Ne.symm hkey)]
    · -- the member is patched, and put at the end
      rename_i hnull
      have hold : ∀ t ∈ (detachItem cs target name).1, Distinct cs t := by
        intro t ht
        obtain ⟨m, hm, rfl⟩ := Option.map_eq_some_iff.1 ht
        exact hitems m (List.mem_of_find?_eq_some hm)
      obtain ⟨hnew, hnewMeaning⟩ := hmerge (name, patch) List.mem_cons_self _ hold
      have hne : Json.meaning cs patch ≠ .null := fun h =>
        hnull (isNull_iff.2 (meaning_eq_null_iff.1 h))
      rw [Doc.merge_of_ne_null hne, meaningOf_detached] at hnewMeaning
      have hkeys : ((addItem (detachItem cs target name).2 name
          (mergePatch cs (detachItem cs target name).1 patch)).map (keyOf cs)).Nodup := by
        rw [addItem, List.map_append, List.map_singleton]
        exact List.nodup_append.2 ⟨hleft, List.nodup_singleton _, fun a ha b hb =>
          ne_of_mem_of_not_mem ha (List.mem_singleton.1 hb ▸ hgone)⟩
      have hitems' : ∀ m ∈ addItem (detachItem cs target name).2 name
          (mergePatch cs (detachItem cs target name).1 patch), Distinct cs m.2 := by
        intro m hm
        rcases List.mem_append.1 hm with hm | hm
        · exact hleftItems m hm
        · rw [List.mem_singleton.1 hm]
          exact hnew
      obtain ⟨hkeys, hdist, hmeaning⟩ := ih hmerge' hpatch.2 hkeys hitems'
      refine ⟨hkeys, hdist, hmeaning.trans (funext fun key => ?_)⟩
      rw [meaningMembers_pair, meaningMembers_added hgone]
      by_cases hkey : spelling cs name.val = key
      · rw [if_pos hkey, if_pos hkey, ← hkey, hrest]
        exact hnewMeaning
      · rw [if_neg hkey, if_neg hkey, meaningMembers_left (Ne.symm hkey)]

theorem mergePatch_means {patch : Item ν} (hpatch : Distinct cs patch) (old : Option (Item ν))
    (hold : ∀ t ∈ old, Distinct cs t) :
    Distinct cs (mergePatch cs old patch) ∧
      meaning cs (mergePatch cs old patch) = (meaningOf cs old).merge (meaning cs patch) := by
  induction patch using Item.ind generalizing old with
  | null => exact ⟨trivial, rfl⟩
  | object patchChild ih =>
    obtain ⟨hkeys, hitems⟩ := distinct_object_iff.1 hpatch
    obtain ⟨htarget, htargetItems⟩ := distinct_objectChild hold
    have hmerge := fun m hm => ih m hm (hitems m hm)
    obtain ⟨hkeys', hitems', hmeaning⟩ := mergeMembers_means hmerge hkeys htarget htargetItems
    rw [mergePatch]
    refine ⟨distinct_object_iff.2 ⟨hkeys', hitems'⟩, ?_⟩
    rw [meaning, meaning, hmeaning, ← member_meaningOf]
    rfl
  | _ => exact ⟨trivial, rfl⟩

/-- The patches of a sequence, one after the other. -/
def mergePatches (cs : Bool) (target : Item ν) (patches : List (Item ν)) : Item ν :=
  patches.foldl (fun target patch => mergePatch cs (some target) patch) target

theorem mergePatches_means {patches : List (Item ν)} {target : Item ν}
    (htarget : Distinct cs target)
    (hpatches : ∀ p ∈ patches, Distinct cs p) :
    Distinct cs (mergePatches cs target patches) ∧
      meaning cs (mergePatches cs target patches) =
        (patches.map (meaning cs)).foldl Doc.merge (meaning cs target) := by
  induction patches generalizing target with
  | nil => exact ⟨htarget, rfl⟩
  | cons p rest ih =>
    have hold : ∀ t ∈ some target, Distinct cs t := fun t ht => Option.some.inj ht ▸ htarget
    obtain ⟨hnew, hmeaning⟩ := mergePatch_means (hpatches p List.mem_cons_self) (some target) hold
    obtain ⟨hrun, hrest⟩ := ih hnew fun q hq => hpatches q (List.mem_cons_of_mem p hq)
    rw [List.map_cons, List.foldl_cons]
    rw [hmeaning] at hrest
    exact ⟨hrun, hrest⟩

/-- Any sequence of patches does to an item what the patches mean, one after the other, and doing
the last one again changes nothing. -/
theorem mergePatches_meaning {patches : List (Item ν)} {target : Item ν}
    (htarget : Distinct cs target)
    (hpatches : ∀ p ∈ patches, Distinct cs p) :
    meaning cs (mergePatches cs target patches) =
        (patches.map (meaning cs)).foldl Doc.merge (meaning cs target) ∧
      ∀ p ∈ patches.getLast?,
        meaning cs (mergePatches cs target (patches ++ [p])) =
          meaning cs (mergePatches cs target patches) := by
  obtain ⟨-, hrun⟩ := mergePatches_means htarget hpatches
  refine ⟨hrun, fun p hp => ?_⟩
  obtain ⟨first, rfl⟩ := List.getLast?_eq_some_iff.1 hp
  have hp : Distinct cs p := hpatches p List.mem_concat_self
  have hagain : ∀ q ∈ first ++ [p] ++ [p], Distinct cs q := by
    intro q hq
    rcases List.mem_append.1 hq with hq | hq
    · exact hpatches q hq
    · exact List.mem_singleton.1 hq ▸ hp
  rw [hrun, (mergePatches_means htarget hagain).2]
  simp only [List.map_append, List.map_singleton, List.foldl_append, List.foldl_cons,
    List.foldl_nil]
  exact Doc.merge_merge _ _

/-- A member is changed and another one removed. -/
theorem mergePatches_meaning_two :
    let target : Item Unit := .object [(Str.ofBytes (text "a"), .object []),
      (Str.ofBytes (text "b"), .null)]
    let patch : Item Unit := .object [(Str.ofBytes (text "A"), .bool true),
      (Str.ofBytes (text "b"), .null)]
    meaning false (mergePatches false target [patch]) =
      (meaning false target).merge (meaning false patch) ∧
      meaning false (mergePatches false target [patch, patch]) =
        meaning false (mergePatches false target [patch]) := by
  intro target patch
  have htarget : Distinct false target := ⟨by decide, ⟨List.nodup_nil, trivial⟩, trivial, trivial⟩
  have hpatch : Distinct false patch := ⟨by decide, trivial, trivial, trivial⟩
  have hpatches : ∀ p ∈ [patch], Distinct false p := fun p hp => List.mem_singleton.1 hp ▸ hpatch
  obtain ⟨hrun, hagain⟩ := mergePatches_meaning htarget hpatches
  exact ⟨hrun, hagain patch rfl⟩

end Json
end CFunction
