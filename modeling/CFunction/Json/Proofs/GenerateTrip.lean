import CFunction.Json.Proofs.GenerateSpec

/-!
# A generated patch leads to its target

What `compare_json` takes for equal is alike: the same but for values that it does not tell apart
(all truth values, all raw texts and doubles close to each other). Merging a generated patch into
the first item gives the second one up to that.
-/

namespace CFunction
namespace Json

open CString MergePatch

variable {ν : Type} {D : Doubles ν} {valueint : ν → Int64} {c cs : Bool} {N : Set Str}
  {child child' : List (Str × Item ν)}

/-- Values that `compare_json` takes for equal. -/
def SameValue (D : Doubles ν) (valueint : ν → Int64) (a b : Item ν) : Prop :=
  ∃ c, compareJson D valueint c a b = true

/-! ### Comparing -/

theorem sortObject_map {β γ : Type} (f : Str × β → γ) (xs : List (Str × β)) :
    sortObject c (xs.map fun m => (m.1, f m)) = (sortObject c xs).map fun m => (m.1, f m) := by
  symm
  apply List.map_mergeSort
  exact fun _ _ _ _ => rfl

theorem comparers_eq (child : List (Str × Item ν)) :
    comparers D valueint c child = child.map fun m => (m.1, compareJson D valueint c m.2) := by
  induction child with
  | nil => rfl
  | cons m rest ih => rw [comparers, ih, List.map_cons]

/-- Equal names and like items at the same places. -/
theorem compareSorted_alike (hN : KeepsOrder N) {a b : List (Str × Item ν)}
    (ha : ∀ m ∈ a, m.1 ∈ N) (hb : ∀ m ∈ b, m.1 ∈ N)
    (halike : ∀ m ∈ a, ∀ n ∈ b, compareJson D valueint c m.2 n.2 = true →
      (meaning cs m.2).Alike (SameValue D valueint) (meaning cs n.2))
    (h : compareSorted c (a.map fun m => (m.1, compareJson D valueint c m.2)) b = true)
    (key : Bytes) :
    (meaningMembers cs a key).Alike (SameValue D valueint) (meaningMembers cs b key) := by
  induction a generalizing b with
  | nil =>
    cases b with
    | nil => exact .refl _
    | cons n b => exact absurd h Bool.false_ne_true
  | cons m a ih =>
    cases b with
    | nil => exact absurd h Bool.false_ne_true
    | cons n b =>
      rw [List.map_cons, compareSorted, Bool.and_eq_true, Bool.and_eq_true, decide_eq_true_iff] at h
      obtain ⟨⟨hname, hitem⟩, hrest⟩ := h
      obtain ⟨hma, ha⟩ := List.forall_mem_cons.1 ha
      obtain ⟨hnb, hb⟩ := List.forall_mem_cons.1 hb
      have hspelled := (strcmp_eq_zero_iff (nulFree_spelling c m.1) (nulFree_spelling c n.1)).1
        hname
      have hkeys : keyOf cs m = keyOf cs n :=
        congrArg (fun s : Str => spelling cs s.val) (hN.eq_of_spelling hma hnb hspelled)
      rw [meaningMembers_cons, meaningMembers_cons, hkeys]
      split
      · exact halike m List.mem_cons_self n List.mem_cons_self hitem
      · exact ih ha hb (fun m' hm' n' hn' => halike m' (List.mem_cons_of_mem m hm') n'
          (List.mem_cons_of_mem n hn')) hrest

theorem meaningMembers_sortObject (hN : KeepsOrder N) (hnodup : (child.map Prod.fst).Nodup)
    (hnames : ∀ m ∈ child, m.1 ∈ N) (c : Bool) :
    meaningMembers cs (sortObject c child) = meaningMembers cs child := by
  have hperm : (sortObject c child).Perm child := List.mergeSort_perm _ _
  have hnames' : ∀ m ∈ sortObject c child, m.1 ∈ N := fun m hm => hnames m (hperm.mem_iff.1 hm)
  exact meaningMembers_perm hperm (nodup_keys hN ((hperm.map Prod.fst).nodup_iff.2 hnodup) hnames')

/-- Equal items are alike, in whatever mode they are compared. -/
theorem compareJson_alike (hN : KeepsOrder N) {a b : Item ν} (ha : Named N a) (hb : Named N b)
    (h : compareJson D valueint c a b = true) :
    (meaning cs a).Alike (SameValue D valueint) (meaning cs b) := by
  induction a using Item.ind generalizing b with
  | null =>
    cases b with
    | null => exact .refl _
    | _ => exact absurd h Bool.false_ne_true
  | object child ih =>
    cases b with
    | object child' =>
      obtain ⟨hnodup, hmembers⟩ := named_object_iff.1 ha
      obtain ⟨hnodup', hmembers'⟩ := named_object_iff.1 hb
      rw [compareJson, comparers_eq, sortObject_map] at h
      have hmem : ∀ m ∈ sortObject c child, m ∈ child := fun m => List.mem_mergeSort.1
      have hmem' : ∀ n ∈ sortObject c child', n ∈ child' := fun n => List.mem_mergeSort.1
      have halike : ∀ key, (meaningMembers cs (sortObject c child) key).Alike
          (SameValue D valueint) (meaningMembers cs (sortObject c child') key) :=
        compareSorted_alike hN (fun m hm => (hmembers m (hmem m hm)).1)
          (fun n hn => (hmembers' n (hmem' n hn)).1) (fun m hm n hn =>
            ih m (hmem m hm) (hmembers m (hmem m hm)).2 (hmembers' n (hmem' n hn)).2) h
      rw [meaningMembers_sortObject hN hnodup (fun m hm => (hmembers m hm).1),
        meaningMembers_sortObject hN hnodup' (fun m hm => (hmembers' m hm).1)] at halike
      exact .object halike
    | _ => exact absurd h Bool.false_ne_true
  | _ =>
    cases b with
    | null => exact absurd h Bool.false_ne_true
    | object child' => exact absurd h Bool.false_ne_true
    | _ => exact .value ⟨c, h⟩

/-! ### Generating -/

theorem targets_eq (child : List (Str × Item ν)) :
    targets D valueint child = child.map fun m =>
      (m.1, ⟨m.2, fun fromItem => generateMergePatch D valueint false fromItem m.2⟩) := by
  induction child with
  | nil => rfl
  | cons m rest ih => rw [targets, ih, List.map_cons]

theorem reached_targets (child : List (Str × Item ν)) :
    reached (sortObject c (targets D valueint child)) = sortObject c child := by
  rw [targets_eq, sortObject_map, reached, List.map_map]
  exact List.map_id' _

theorem nodup_of_increasing {β : Type} {xs : List (Str × β)} (h : Increasing xs) :
    (xs.map Prod.fst).Nodup := by
  refine List.pairwise_map.2 (h.imp fun hlt he => ?_)
  rw [he, strcmp_self] at hlt
  exact absurd hlt (Int.lt_irrefl 0)

/-- What the walk over the members of two objects finds, when their items are patched. -/
theorem walkable_objects (hN : KeepsOrder N) (hfrom : Named N (.object child))
    (hto : Named N (.object child')) (hnull : ∀ n ∈ child', (meaning cs n.2).NullFree)
    (hleads : ∀ m ∈ child, ∀ n ∈ child', Leads cs (SameValue D valueint) m.2 n.2
      (generateMergePatch D valueint false m.2 n.2)) :
    Walkable cs N (SameValue D valueint) (compareJson D valueint c) (sortObject c child)
      (sortObject c (targets D valueint child')) := by
  obtain ⟨hnodup, hmembers⟩ := named_object_iff.1 hfrom
  obtain ⟨hnodup', hmembers'⟩ := named_object_iff.1 hto
  have hmem : ∀ m ∈ sortObject c child, m ∈ child := fun m => List.mem_mergeSort.1
  have hmem' : ∀ t ∈ sortObject c (targets D valueint child'), ∃ n ∈ child', t =
      (n.1, ⟨n.2, fun fromItem => generateMergePatch D valueint false fromItem n.2⟩) := by
    intro t ht
    have ht' := List.mem_mergeSort.1 ht
    rw [targets_eq] at ht'
    obtain ⟨n, hn, he⟩ := List.mem_map.1 ht'
    exact ⟨n, hn, he.symm⟩
  have hnames' : (targets D valueint child').map Prod.fst = child'.map Prod.fst := by
    rw [targets_eq, List.map_map]
    rfl
  refine ⟨increasing_sortObject hN hnodup (fun m hm => (hmembers m hm).1) c, ?_, ?_, ?_, ?_, ?_, ?_⟩
  · apply increasing_sortObject hN
    · rw [hnames']
      exact hnodup'
    · intro t ht
      obtain ⟨n, hn, rfl⟩ := hmem' t (List.mem_mergeSort.2 ht)
      exact (hmembers' n hn).1
  · exact fun m hm => (hmembers m (hmem m hm)).1
  · intro t ht
    obtain ⟨n, hn, rfl⟩ := hmem' t ht
    exact (hmembers' n hn).1
  · intro t ht
    obtain ⟨n, hn, rfl⟩ := hmem' t ht
    exact hnull n hn
  · intro m hm t ht hsame
    obtain ⟨n, hn, rfl⟩ := hmem' t ht
    exact compareJson_alike hN (hmembers m (hmem m hm)).2 (hmembers' n hn).2 hsame
  · intro m hm t ht
    obtain ⟨n, hn, rfl⟩ := hmem' t ht
    exact hleads m (hmem m hm) n hn

/-- A generated patch leads to its target, and has no name twice either. -/
theorem generate_leads (hN : KeepsOrder N) {fromItem toItem : Item ν} (hfrom : Named N fromItem)
    (hto : Named N toItem) (hnull : (meaning cs toItem).NullFree) (c : Bool) :
    Leads cs (SameValue D valueint) fromItem toItem
      (generateMergePatch D valueint c fromItem toItem) ∧
      ∀ p ∈ generateMergePatch D valueint c fromItem toItem, Named N p := by
  induction toItem using Item.ind generalizing fromItem c with
  | null => exact hnull.elim
  | object child' ih =>
    have hself : ∀ p ∈ some (Item.object child'), Named N p := fun p hp => Option.some.inj hp ▸ hto
    cases fromItem with
    | object child =>
      obtain ⟨hnodup, hmembers⟩ := named_object_iff.1 hfrom
      obtain ⟨hnodup', hmembers'⟩ := named_object_iff.1 hto
      have hkeys' : (child'.map (keyOf cs)).Nodup := nodup_keys hN hnodup' fun n hn =>
        (hmembers' n hn).1
      have hnull' : ∀ n ∈ child', (meaning cs n.2).NullFree := by
        intro n hn
        rw [← meaningMembers_of_mem hkeys' hn]
        exact hnull _
      have hitems : ∀ m ∈ child, ∀ n ∈ child', _ := fun m hm n hn =>
        ih n hn (hmembers m hm).2 (hmembers' n hn).2 (hnull' n hn) false
      have W := walkable_objects (c := c) hN hfrom hto hnull' fun m hm n hn => (hitems m hm n hn).1
      have halike := generateSorted_alike hN W
      rw [reached_targets, meaningMembers_sortObject hN hnodup (fun m hm => (hmembers m hm).1),
        meaningMembers_sortObject hN hnodup' (fun n hn => (hmembers' n hn).1)] at halike
      rw [generateMergePatch]
      split
      · rename_i hempty
        refine ⟨.object fun key => ?_, nofun⟩
        have := halike key
        rw [List.isEmpty_iff.1 hempty] at this
        exact this
      · refine ⟨⟨nofun, .object halike⟩, fun p hp => ?_⟩
        rw [← Option.some.inj hp]
        refine named_object_iff.2 ⟨nodup_of_increasing (increasing_generateSorted W), fun m hm =>
          ⟨W.names m hm, ?_⟩⟩
        refine forall_generateSorted trivial ?_ ?_ m hm
        · intro t ht
          have ht' := List.mem_mergeSort.1 ht
          rw [targets_eq] at ht'
          obtain ⟨n, hn, rfl⟩ := List.mem_map.1 ht'
          exact (hmembers' n hn).2
        · intro n hn t ht p hp
          have ht' := List.mem_mergeSort.1 ht
          rw [targets_eq] at ht'
          obtain ⟨n', hn', rfl⟩ := List.mem_map.1 ht'
          exact (hitems n (List.mem_mergeSort.1 hn) n' hn').2 p hp
    | _ => exact ⟨⟨nofun, .of_eq (Doc.apply_of_no_members (fun _ => rfl) hnull nofun)⟩, hself⟩
  | _ => exact ⟨⟨nofun, .refl _⟩, fun p hp => Option.some.inj hp ▸ hto⟩

/-- The generated patch, merged into the first item. -/
def patched (D : Doubles ν) (valueint : ν → Int64) (cs : Bool) (fromItem toItem : Item ν) :
  Item ν :=
  match generateMergePatch D valueint cs fromItem toItem with
  | none => fromItem
  | some patch => mergePatch cs (some fromItem) patch

/-- Merging the patch that was generated from one item to another gives the other one, if no member
of it is `null` and the order of the names does not depend on the case of their letters. -/
theorem generate_then_merge (hN : KeepsOrder N) {fromItem toItem : Item ν}
    (hfrom : Named N fromItem)
    (hto : Named N toItem) (hnull : toItem ≠ .null → (meaning cs toItem).NullFree) :
    (meaning cs (patched D valueint cs fromItem toItem)).Alike (SameValue D valueint)
      (meaning cs toItem) := by
  by_cases hne : toItem = .null
  · rw [hne]
    exact .refl _
  obtain ⟨hleads, hnamed⟩ := generate_leads hN hfrom hto (hnull hne) cs
  rw [patched]
  cases hpatch : generateMergePatch D valueint cs fromItem toItem with
  | none =>
    rw [hpatch] at hleads
    exact hleads
  | some patch =>
    rw [hpatch] at hleads
    have hold : ∀ t ∈ some fromItem, Distinct cs t :=
      fun t ht => Option.some.inj ht ▸ hfrom.distinct hN
    have hmerge := mergePatch_means ((hnamed patch hpatch).distinct hN) (some fromItem) hold
    have hpatchNull : meaning cs patch ≠ .null := fun h => hleads.1 (meaning_eq_null_iff.1 h)
    rw [hmerge.2, Doc.merge_of_ne_null hpatchNull]
    exact hleads.2

/-- An object whose members change places, lose one and get another. -/
theorem generate_then_merge_small :
    let fromItem : Item Unit :=
      .object [(Str.ofBytes (text "b"), .object [(Str.ofBytes (text "d"), .int 1)]),
        (Str.ofBytes (text "a"), .null)]
    let toItem : Item Unit :=
      .object [(Str.ofBytes (text "c"), .int 3),
        (Str.ofBytes (text "b"), .object [(Str.ofBytes (text "d"), .int 2)])]
    (meaning false (patched half (fun _ => 0) false fromItem toItem)).Alike
      (SameValue half fun _ => 0) (meaning false toItem) := by
  intro fromItem toItem
  let N : Set Str := {s | s.val.map tolower = s.val}
  have hN : KeepsOrder N := by
    intro s hs t ht
    rw [show s.val.map tolower = s.val from hs, show t.val.map tolower = t.val from ht]
  have hfrom : Named N fromItem :=
    ⟨by decide, rfl, ⟨List.nodup_singleton _, rfl, trivial, trivial⟩, rfl, trivial, trivial⟩
  have hto : Named N toItem :=
    ⟨by decide, rfl, trivial, rfl, ⟨List.nodup_singleton _, rfl, trivial, trivial⟩, trivial⟩
  refine generate_then_merge hN hfrom hto fun _ => ?_
  intro key
  rw [meaningMembers_pair, meaningMembers_pair]
  split
  · trivial
  · split
    · intro key
      rw [meaningMembers_pair]
      split
      · trivial
      · trivial
    · trivial

end Json
end CFunction
