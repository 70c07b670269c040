import CFunction.Json.Proofs.MergeMeaning
import CFunction.Misc.StrictMerge

/-!
# Walking two sorted objects

The two objects are sorted by their names as the case mode has them, and walked by `strcmp`. Both
orders have to agree on the names, or a member of both objects is taken for one that is missing.
-/

namespace CFunction
namespace Json

open CString MergePatch

variable {ν β : Type} {cs : Bool} {N : Set Str} {R : Item ν → Item ν → Prop}
  {child child' : List (Str × Item ν)} {key : Bytes}

/-! ### Names whose case does not count -/

/-- Small letters are in the same order as the letters that they stand for. -/
def KeepsOrder (N : Set Str) : Prop :=
  ∀ s ∈ N, ∀ t ∈ N, strcmp (s.val.map tolower) (t.val.map tolower) < 0 ↔ strcmp s.val t.val < 0

theorem KeepsOrder.spelling_lt_iff (hN : KeepsOrder N) (cs : Bool) {s t : Str} (hs : s ∈ N)
    (ht : t ∈ N) : strcmp (spelling cs s.val) (spelling cs t.val) < 0 ↔ strcmp s.val t.val < 0 := by
  cases cs with
  | true => exact Iff.rfl
  | false => exact hN s hs t ht

theorem strcmp_ne_zero {s t : Str} (h : s ≠ t) : strcmp s.val t.val ≠ 0 :=
  fun he => h (Subtype.ext ((strcmp_eq_zero_iff s.property t.property).1 he))

/-- Different names are spelled differently. -/
theorem KeepsOrder.eq_of_spelling (hN : KeepsOrder N) {s t : Str} (hs : s ∈ N) (ht : t ∈ N)
    (h : spelling cs s.val = spelling cs t.val) : s = t := by
  have hst := hN.spelling_lt_iff cs hs ht
  have hts := hN.spelling_lt_iff cs ht hs
  rw [h, strcmp_self] at hst
  rw [h, strcmp_self, strcmp_swap s.val] at hts
  by_contra hne
  have := strcmp_ne_zero hne
  omega

mutual

/-- The names of every object are in `N`, and no object has one twice. -/
def Named (N : Set Str) : Item ν → Prop
  | .object child => (child.map Prod.fst).Nodup ∧ NamedMembers N child
  | _ => True

def NamedMembers (N : Set Str) : List (Str × Item ν) → Prop
  | [] => True
  | (name, item) :: rest => name ∈ N ∧ Named N item ∧ NamedMembers N rest

end

theorem namedMembers_iff : NamedMembers N child ↔ ∀ m ∈ child, m.1 ∈ N ∧ Named N m.2 := by
  induction child with
  | nil => exact iff_of_true trivial fun _ h => absurd h List.not_mem_nil
  | cons m rest ih => rw [NamedMembers, ih, List.forall_mem_cons, and_assoc]

theorem named_object_iff : Named N (.object child) ↔
    (child.map Prod.fst).Nodup ∧ ∀ m ∈ child, m.1 ∈ N ∧ Named N m.2 := by
  rw [Named, namedMembers_iff]

theorem nodup_keys (hN : KeepsOrder N) {xs : List (Str × β)} (hxs : (xs.map Prod.fst).Nodup)
    (hnames : ∀ m ∈ xs, m.1 ∈ N) : (xs.map (keyOf cs)).Nodup := by
  have hkeys : xs.map (keyOf cs) = (xs.map Prod.fst).map fun s => spelling cs s.val := by
    rw [List.map_map]
    rfl
  rw [hkeys]
  refine List.Nodup.map_on (fun s hs t ht h => ?_) hxs
  obtain ⟨m, hm, rfl⟩ := List.mem_map.1 hs
  obtain ⟨n, hn, rfl⟩ := List.mem_map.1 ht
  exact hN.eq_of_spelling (hnames m hm) (hnames n hn) h

theorem Named.distinct (hN : KeepsOrder N) {item : Item ν} (h : Named N item) :
    Distinct cs item := by
  induction item using Item.ind with
  | object child ih =>
    obtain ⟨hnodup, hmembers⟩ := named_object_iff.1 h
    exact distinct_object_iff.2 ⟨nodup_keys hN hnodup fun m hm => (hmembers m hm).1,
      fun m hm => ih m hm (hmembers m hm).2⟩
  | _ => trivial

/-! ### Sorted objects -/

/-- One name behind the other. -/
def Increasing (xs : List (Str × β)) : Prop := xs.Pairwise fun a b => strcmp a.1.val b.1.val < 0

theorem increasing_sortObject (hN : KeepsOrder N) {xs : List (Str × β)}
    (hxs : (xs.map Prod.fst).Nodup) (hnames : ∀ m ∈ xs, m.1 ∈ N) (cs : Bool) :
    Increasing (sortObject cs xs) := by
  have hperm : (sortObject cs xs).Perm xs := List.mergeSort_perm _ _
  have hlt : StrictMerge.StrictOn (fun a b : Str × β => before cs (some a.1) (some b.1))
      fun _ => True := ⟨fun _ _ _ _ => before_asymm, fun _ _ _ _ _ _ => not_before_trans⟩
  have hany : ∀ m ∈ xs, True := fun _ _ => trivial
  have hsorted := StrictMerge.sorted_mergeSort hlt hany
  have hnodup : (sortObject cs xs).Pairwise fun a b => a.1 ≠ b.1 :=
    List.pairwise_map.1 ((hperm.map Prod.fst).nodup_iff.2 hxs)
  refine (hsorted.and hnodup).imp_of_mem fun ha hb h => ?_
  have hle := mt (hN.spelling_lt_iff cs (hnames _ (hperm.mem_iff.1 hb))
    (hnames _ (hperm.mem_iff.1 ha))).2
    (not_before_iff.1 h.1)
  have hne := strcmp_ne_zero h.2
  rw [strcmp_swap] at hle
  omega

/-- A name in front of all others is none of them. -/
theorem notMem_of_lt (hN : KeepsOrder N) {s : Str} (hs : s ∈ N) {xs : List (Str × β)}
    (hnames : ∀ m ∈ xs, m.1 ∈ N) (hlt : ∀ m ∈ xs, strcmp s.val m.1.val < 0) :
    spelling cs s.val ∉ xs.map (keyOf cs) := by
  intro h
  obtain ⟨m, hm, he⟩ := List.mem_map.1 h
  have := hlt m hm
  rw [hN.eq_of_spelling (hnames m hm) hs he, strcmp_self] at this
  exact absurd this (Int.lt_irrefl 0)

/-! ### The walk -/

/-- The members that are to be reached. -/
def reached (targets : List (Str × Target ν)) : List (Str × Item ν) :=
  targets.map fun t => (t.1, t.2.item)

/-- A patch leads from one item to an item like the other one, and none is needed when they are
alike already. -/
def Leads (cs : Bool) (R : Item ν → Item ν → Prop) (old new : Item ν) : Option (Item ν) → Prop
  | none => (meaning cs old).Alike R (meaning cs new)
  | some patch =>
    patch ≠ .null ∧ ((meaning cs old).apply (meaning cs patch)).Alike R (meaning cs new)

/-- The names of the patch are names of the two objects. -/
theorem name_generateSorted (compare : Item ν → Item ν → Bool) (fromChild : List (Str × Item ν))
    (toChild : List (Str × Target ν)) :
    ∀ m ∈ generateSorted compare fromChild toChild,
      m.1 ∈ fromChild.map Prod.fst ∨ m.1 ∈ toChild.map Prod.fst := by
  fun_induction generateSorted compare fromChild toChild with
  | case1 => exact fun _ h => absurd h List.not_mem_nil
  | _ => grind

section

variable {compare : Item ν → Item ν → Bool} {fromChild : List (Str × Item ν)}
  {toChild : List (Str × Target ν)} {name : Str} {m : Str × Item ν} {t : Str × Target ν}

/-- What the walk needs of the two objects. -/
structure Walkable (cs : Bool) (N : Set Str) (R : Item ν → Item ν → Prop)
    (compare : Item ν → Item ν → Bool) (fromChild : List (Str × Item ν))
    (toChild : List (Str × Target ν)) : Prop where
  fromSorted : Increasing fromChild
  toSorted : Increasing toChild
  fromNames : ∀ m ∈ fromChild, m.1 ∈ N
  toNames : ∀ t ∈ toChild, t.1 ∈ N
  nullFree : ∀ t ∈ toChild, (meaning cs t.2.item).NullFree
  same : ∀ m ∈ fromChild, ∀ t ∈ toChild, compare m.2 t.2.item = true →
    (meaning cs m.2).Alike R (meaning cs t.2.item)
  leads : ∀ m ∈ fromChild, ∀ t ∈ toChild, Leads cs R m.2 t.2.item (t.2.patchFrom m.2)

theorem Walkable.fromTail (W : Walkable cs N R compare (m :: fromChild) toChild) :
    Walkable cs N R compare fromChild toChild where
  fromSorted := W.fromSorted.tail
  toSorted := W.toSorted
  fromNames n hn := W.fromNames n (List.mem_cons_of_mem m hn)
  toNames := W.toNames
  nullFree := W.nullFree
  same n hn := W.same n (List.mem_cons_of_mem m hn)
  leads n hn := W.leads n (List.mem_cons_of_mem m hn)

theorem Walkable.toTail (W : Walkable cs N R compare fromChild (t :: toChild)) :
    Walkable cs N R compare fromChild toChild where
  fromSorted := W.fromSorted
  toSorted := W.toSorted.tail
  fromNames := W.fromNames
  toNames u hu := W.toNames u (List.mem_cons_of_mem t hu)
  nullFree u hu := W.nullFree u (List.mem_cons_of_mem t hu)
  same n hn u hu := W.same n hn u (List.mem_cons_of_mem t hu)
  leads n hn u hu := W.leads n hn u (List.mem_cons_of_mem t hu)

/-- Behind a name that is in front of both heads the walk finds only later names. -/
theorem lt_generateSorted (hfrom : ∀ m ∈ fromChild, strcmp name.val m.1.val < 0)
    (hto : ∀ t ∈ toChild, strcmp name.val t.1.val < 0) :
    ∀ m ∈ generateSorted compare fromChild toChild, strcmp name.val m.1.val < 0 := by
  intro m hm
  rcases name_generateSorted compare fromChild toChild m hm with h | h
  · obtain ⟨n, hn, he⟩ := List.mem_map.1 h
    exact he ▸ hfrom n hn
  · obtain ⟨u, hu, he⟩ := List.mem_map.1 h
    exact he ▸ hto u hu

theorem Walkable.names (W : Walkable cs N R compare fromChild toChild) :
    ∀ m ∈ generateSorted compare fromChild toChild, m.1 ∈ N := by
  intro m hm
  rcases name_generateSorted compare fromChild toChild m hm with h | h
  · obtain ⟨n, hn, he⟩ := List.mem_map.1 h
    exact he ▸ W.fromNames n hn
  · obtain ⟨u, hu, he⟩ := List.mem_map.1 h
    exact he ▸ W.toNames u hu

theorem lt_of_lt_head {xs : List (Str × β)} {x : Str × β} (hxs : Increasing (x :: xs))
    (h : strcmp name.val x.1.val < 0) : ∀ y ∈ x :: xs, strcmp name.val y.1.val < 0 := by
  intro y hy
  rcases List.mem_cons.1 hy with rfl | hy
  · exact h
  · exact strcmp_lt_trans x.1.property h ((List.pairwise_cons.1 hxs).1 y hy)

theorem notMem_reached (hN : KeepsOrder N) (W : Walkable cs N R compare fromChild toChild)
    (hname : name ∈ N) (hto : ∀ t ∈ toChild, strcmp name.val t.1.val < 0) :
    meaningMembers cs (reached toChild) (spelling cs name.val) = .absent := by
  apply meaningMembers_of_notMem
  apply notMem_of_lt hN hname
  · intro m hm
    obtain ⟨t, ht, rfl⟩ := List.mem_map.1 hm
    exact W.toNames t ht
  · intro m hm
    obtain ⟨t, ht, rfl⟩ := List.mem_map.1 hm
    exact hto t ht

/-- A name that both objects have, and what the walk adds for it. -/
theorem alike_both {item : Item ν} {target : Target ν} (hN : KeepsOrder N)
    (W : Walkable cs N R compare ((name, item) :: fromChild) ((name, target) :: toChild))
    {patch : Option (Item ν)} (hleads : Leads cs R item target.item patch)
    (hrest : ∀ key, ((meaningMembers cs fromChild key).apply
        (meaningMembers cs (generateSorted compare fromChild toChild) key)).Alike R
      (meaningMembers cs (reached toChild) key)) (key : Bytes) :
    ((meaningMembers cs ((name, item) :: fromChild) key).apply
        (meaningMembers cs (patch.toList.map (name, ·) ++ generateSorted compare fromChild toChild)
          key)).Alike R
      (meaningMembers cs (reached ((name, target) :: toChild)) key) := by
  have hfrom := (List.pairwise_cons.1 W.fromSorted).1
  have hto := (List.pairwise_cons.1 W.toSorted).1
  have habsent : meaningMembers cs (generateSorted compare fromChild toChild)
      (spelling cs name.val) = .absent :=
    meaningMembers_of_notMem (notMem_of_lt hN (W.fromNames _ List.mem_cons_self)
      W.fromTail.toTail.names (lt_generateSorted hfrom hto))
  rw [reached, List.map_cons, meaningMembers_pair, meaningMembers_pair]
  by_cases hkey : spelling cs name.val = key
  · rw [if_pos hkey, if_pos hkey]
    cases patch with
    | none =>
      rw [← hkey, Option.toList_none, List.map_nil, List.nil_append, habsent]
      exact hleads
    | some patch =>
      rw [Option.toList_some, List.map_singleton, List.singleton_append, meaningMembers_pair,
        if_pos hkey]
      exact hleads.2
  · rw [if_neg hkey, if_neg hkey]
    cases patch with
    | none => exact hrest key
    | some patch =>
      rw [Option.toList_some, List.map_singleton, List.singleton_append, meaningMembers_pair,
        if_neg hkey]
      exact hrest key

theorem eq_of_strcmp {name' : Str} (hle : ¬ strcmp name.val name'.val < 0)
    (hge : ¬ 0 < strcmp name.val name'.val) : name = name' :=
  Subtype.ext ((strcmp_eq_zero_iff name.property name'.property).1 (by omega))

/-- Under every name the patch leads from the one object to the other. -/
theorem generateSorted_alike (hN : KeepsOrder N) (W : Walkable cs N R compare fromChild toChild) :
    ∀ key, ((meaningMembers cs fromChild key).apply
        (meaningMembers cs (generateSorted compare fromChild toChild) key)).Alike R
      (meaningMembers cs (reached toChild) key) := by
  fun_induction generateSorted compare fromChild toChild with
  | case1 => exact fun _ => .refl _
  | case2 name item fromChild ih =>
    intro key
    rw [meaningMembers_pair, meaningMembers_pair]
    by_cases hkey : spelling cs name.val = key
    · rw [if_pos hkey, if_pos hkey]
      exact .refl _
    · rw [if_neg hkey, if_neg hkey]
      exact ih W.fromTail key
  | case3 name target toChild ih =>
    intro key
    rw [reached, List.map_cons, meaningMembers_pair, meaningMembers_pair]
    by_cases hkey : spelling cs name.val = key
    · rw [if_pos hkey, if_pos hkey]
      exact .of_eq (Doc.absent_apply (W.nullFree _ List.mem_cons_self))
    · rw [if_neg hkey, if_neg hkey]
      exact ih W.toTail key
  | case4 name item fromChild name' target toChild diff hlt ih =>
    intro key
    rw [meaningMembers_pair, meaningMembers_pair]
    by_cases hkey : spelling cs name.val = key
    · have habsent := notMem_reached hN W (W.fromNames _ List.mem_cons_self)
        (lt_of_lt_head W.toSorted hlt)
      rw [if_pos hkey, if_pos hkey, ← hkey, habsent]
      exact .refl _
    · rw [if_neg hkey, if_neg hkey]
      exact ih W.fromTail key
  | case5 name item fromChild name' target toChild diff hge hgt ih =>
    intro key
    have hlt : strcmp name'.val name.val < 0 := by
      rw [strcmp_swap]
      exact Int.neg_neg_of_pos hgt
    rw [reached, List.map_cons, meaningMembers_pair name' target.item,
      meaningMembers_pair name' target.item]
    by_cases hkey : spelling cs name'.val = key
    · have habsent : meaningMembers cs ((name, item) :: fromChild) (spelling cs name'.val) =
        .absent :=
        meaningMembers_of_notMem (notMem_of_lt hN (W.toNames _ List.mem_cons_self) W.fromNames
          (lt_of_lt_head W.fromSorted hlt))
      rw [if_pos hkey, if_pos hkey, ← hkey, habsent]
      exact .of_eq (Doc.absent_apply (W.nullFree _ List.mem_cons_self))
    · rw [if_neg hkey, if_neg hkey]
      exact ih W.toTail key
  | case6 name item fromChild name' target toChild diff hge hle hsame ih =>
    obtain rfl := eq_of_strcmp hge hle
    have hleads : Leads cs R item target.item none :=
      W.same _ List.mem_cons_self _ List.mem_cons_self hsame
    exact alike_both hN W hleads (ih W.fromTail.toTail)
  | case7 name item fromChild name' target toChild diff hge hle hsame hnone ih =>
    obtain rfl := eq_of_strcmp hge hle
    have hleads := W.leads _ List.mem_cons_self _ List.mem_cons_self
    rw [hnone] at hleads
    exact alike_both hN W hleads (ih W.fromTail.toTail)
  | case8 name item fromChild name' target toChild diff hge hle hsame patch hsome ih =>
    obtain rfl := eq_of_strcmp hge hle
    have hleads := W.leads _ List.mem_cons_self _ List.mem_cons_self
    rw [hsome] at hleads
    exact alike_both hN W hleads (ih W.fromTail.toTail)

/-- The patch has its members in order. -/
theorem increasing_generateSorted (W : Walkable cs N R compare fromChild toChild) :
    Increasing (generateSorted compare fromChild toChild) := by
  fun_induction generateSorted compare fromChild toChild with
  | case1 => exact List.Pairwise.nil
  | case2 name item fromChild ih =>
    have hfrom := (List.pairwise_cons.1 W.fromSorted).1
    exact List.pairwise_cons.2 ⟨lt_generateSorted hfrom nofun, ih W.fromTail⟩
  | case3 name target toChild ih =>
    have hto := (List.pairwise_cons.1 W.toSorted).1
    exact List.pairwise_cons.2 ⟨lt_generateSorted nofun hto, ih W.toTail⟩
  | case4 name item fromChild name' target toChild diff hlt ih =>
    have hfrom := (List.pairwise_cons.1 W.fromSorted).1
    have hto := lt_of_lt_head W.toSorted hlt
    exact List.pairwise_cons.2 ⟨lt_generateSorted hfrom hto, ih W.fromTail⟩
  | case5 name item fromChild name' target toChild diff hge hgt ih =>
    have hlt : strcmp name'.val name.val < 0 := by
      rw [strcmp_swap]
      exact Int.neg_neg_of_pos hgt
    have hfrom := lt_of_lt_head W.fromSorted hlt
    have hto := (List.pairwise_cons.1 W.toSorted).1
    exact List.pairwise_cons.2 ⟨lt_generateSorted hfrom hto, ih W.toTail⟩
  | case6 name item fromChild name' target toChild diff hge hle hsame ih =>
    exact ih W.fromTail.toTail
  | case7 name item fromChild name' target toChild diff hge hle hsame hnone ih =>
    exact ih W.fromTail.toTail
  | case8 name item fromChild name' target toChild diff hge hle hsame patch hsome ih =>
    obtain rfl := eq_of_strcmp hge hle
    have hfrom := (List.pairwise_cons.1 W.fromSorted).1
    have hto := (List.pairwise_cons.1 W.toSorted).1
    exact List.pairwise_cons.2 ⟨lt_generateSorted hfrom hto, ih W.fromTail.toTail⟩

/-- What holds of `null`, of the items to be reached and of their patches holds of the whole
patch. -/
theorem forall_generateSorted {P : Item ν → Prop} (hnull : P .null)
    (hto : ∀ t ∈ toChild, P t.2.item)
    (hpatch : ∀ n ∈ fromChild, ∀ t ∈ toChild, ∀ p ∈ t.2.patchFrom n.2, P p) :
    ∀ m ∈ generateSorted compare fromChild toChild, P m.2 := by
  fun_induction generateSorted compare fromChild toChild with
  | case1 => exact fun _ h => absurd h List.not_mem_nil
  | case2 name item fromChild ih =>
    exact List.forall_mem_cons.2 ⟨hnull, ih hto (List.forall_mem_cons.1 hpatch).2⟩
  | case3 name target toChild ih =>
    obtain ⟨htarget, hto⟩ := List.forall_mem_cons.1 hto
    exact List.forall_mem_cons.2 ⟨htarget, ih hto nofun⟩
  | case4 name item fromChild name' target toChild diff hlt ih =>
    exact List.forall_mem_cons.2 ⟨hnull, ih hto (List.forall_mem_cons.1 hpatch).2⟩
  | case5 name item fromChild name' target toChild diff hge hgt ih =>
    obtain ⟨htarget, hto⟩ := List.forall_mem_cons.1 hto
    exact List.forall_mem_cons.2 ⟨htarget, ih hto fun n hn =>
      (List.forall_mem_cons.1 (hpatch n hn)).2⟩
  | case6 name item fromChild name' target toChild diff hge hle hsame ih =>
    have hrest := (List.forall_mem_cons.1 hpatch).2
    exact ih (List.forall_mem_cons.1 hto).2 fun n hn => (List.forall_mem_cons.1 (hrest n hn)).2
  | case7 name item fromChild name' target toChild diff hge hle hsame hnone ih =>
    have hrest := (List.forall_mem_cons.1 hpatch).2
    exact ih (List.forall_mem_cons.1 hto).2 fun n hn => (List.forall_mem_cons.1 (hrest n hn)).2
  | case8 name item fromChild name' target toChild diff hge hle hsame patch hsome ih =>
    have hrest := (List.forall_mem_cons.1 hpatch).2
    refine List.forall_mem_cons.2 ⟨?_, ih (List.forall_mem_cons.1 hto).2 fun n hn =>
      (List.forall_mem_cons.1 (hrest n hn)).2⟩
    exact hpatch _ List.mem_cons_self _ List.mem_cons_self patch hsome

end

end Json
end CFunction
