import CFunction.Json.Proofs.SiblingLinks
import CFunction.Misc.Forest

/-!
# Deleting items

`cJSON_Delete` goes along the siblings and below each of them. It frees a forest of items, and
writes nothing else.
-/

namespace CFunction
namespace Siblings

variable {h h' : Memory} {s : Ptr → Option (List Ptr)} {p x : Ptr} {xs ps all : List Ptr}

/-- From each of the items `next` leads to the following one, and from the last one to `NULL`. -/
def Chain (next : Ptr → Ptr) : List Ptr → Prop
  | [] => True
  | p :: ps => next p = ps.headD 0 ∧ Chain next ps

theorem chain_of_segment {next prev : Ptr → Ptr} {a : Ptr} (h : Segment next prev a ps 0) :
    Chain next ps := by
  induction ps generalizing a with
  | nil => trivial
  | cons p ps ih => exact ⟨h.2.1, ih h.2.2⟩

/-- The memory without the items `all`. -/
def Memory.without (h : Memory) (all : List Ptr) : Memory where
  live p := h.live p && !decide (p ∈ all)
  next := h.next
  prev := h.prev
  child := h.child
  string := h.string
  null := by rw [h.null, Bool.false_and]

theorem without_live : (h.without all).live p = true ↔ h.live p = true ∧ p ∉ all := by
  rw [Memory.without, Bool.and_eq_true, Bool.not_eq_true', decide_eq_false_iff_not]

theorem live_without (hp : h.live p) (hall : p ∉ all) : (h.without all).live p :=
  without_live.2 ⟨hp, hall⟩

theorem without_nil : h.without [] = h := by
  simp [Memory.without]

theorem without_append (xs ys : List Ptr) : (h.without xs).without ys = h.without (xs ++ ys) := by
  simp [Memory.without, Bool.and_assoc]

theorem freeItem_eq (hp : h.live p) : freeItem h p = some (h.without [p]) := by
  rw [freeItem, if_pos hp]
  congr 2
  funext q
  by_cases hq : q = p
  · rw [hq, Function.update_self]
    simp
  · rw [Function.update_of_ne hq]
    simp [hq]

/-- The links of the items of a forest: every item has its children, one behind the other. -/
def Linked (h : Memory) (s : Ptr → Option (List Ptr)) (all : List Ptr) : Prop :=
  ∀ p ∈ all, h.live p ∧ ∀ ps, s p = some ps → h.child p = ps.headD 0 ∧ Chain h.next ps

/-- Every item of a forest is freed once. -/
theorem deleteItem_forest (hforest : Forest s xs all) : ∀ (h : Memory) (fuel : Nat), all.Nodup →
    Linked h s all → Chain h.next xs → all.length < fuel →
    deleteItem fuel h (xs.headD 0) = some (h.without all) := by
  induction hforest with
  | nil =>
    intro h fuel _ _ _ hfuel
    obtain ⟨fuel, rfl⟩ := Nat.exists_eq_add_of_lt hfuel
    rw [List.headD_nil, deleteItem, if_pos rfl, without_nil]
  | @cons x ps xs below rest hs _ _ ihbelow ihrest =>
    intro h fuel hnodup hlinked hchain hfuel
    obtain ⟨hx, hdistinct⟩ := List.nodup_cons.1 hnodup
    obtain ⟨hbelow, hrest, hapart⟩ := List.nodup_append.1 hdistinct
    rw [List.mem_append, not_or] at hx
    obtain ⟨hxbelow, hxrest⟩ := hx
    obtain ⟨hlive, hchildren⟩ := hlinked x List.mem_cons_self
    obtain ⟨hchild, hbelowChain⟩ := hchildren ps hs
    obtain ⟨hnext, hrestChain⟩ := hchain
    simp only [List.length_cons, List.length_append] at hfuel
    obtain ⟨fuel, rfl⟩ : ∃ k, fuel = k + 1 := ⟨fuel - 1, by omega⟩
    -- what is below `x`
    have hdelete : deleteItem fuel h (ps.headD 0) = some (h.without below) :=
      ihbelow h fuel hbelow (fun p hp => hlinked p (by simp [hp])) hbelowChain (by omega)
    -- what follows `x`
    have hdone : (h.without below).without [x] = h.without (below ++ [x]) := without_append ..
    have hrestLinked : Linked (h.without (below ++ [x])) s rest := by
      intro p hp
      obtain ⟨hplive, hpchildren⟩ := hlinked p (by simp [hp])
      refine ⟨live_without hplive fun hmem => ?_, hpchildren⟩
      rcases List.mem_append.1 hmem with hmem | hmem
      · exact hapart p hmem p hp rfl
      · exact hxrest (List.mem_singleton.1 hmem ▸ hp)
    have hfollows := ihrest _ fuel hrest hrestLinked hrestChain (by omega)
    have hall : (h.without (below ++ [x])).without rest = h.without (x :: (below ++ rest)) := by
      rw [without_append]
      simp only [Memory.without, List.mem_append, List.mem_cons, List.not_mem_nil, or_false]
      congr 2
      funext p
      congr 2
      exact decide_eq_decide.2 (by tauto)
    have htail : ((freeItem (h.without below) x).bind fun h' => deleteItem fuel h' (h.next x)) =
        some (h.without (x :: (below ++ rest))) := by
      rw [freeItem_eq (live_without hlive hxbelow), Option.bind_some, hdone, hnext, hfollows, hall]
    rw [List.headD_cons, deleteItem, if_neg (ne_null hlive), getNext, if_pos hlive, getChild,
      if_pos hlive, Option.bind_eq_bind, Option.bind_some, Option.bind_eq_bind, Option.bind_some,
      hchild]
    dsimp only
    split
    · rw [hdelete]
      exact htail
    · rename_i hnull
      rw [not_not.1 hnull] at hdelete
      cases fuel with
      | zero => omega
      | succ fuel =>
        rw [deleteItem, if_pos rfl] at hdelete
        rw [← Option.some.inj hdelete] at htail
        exact htail

end Siblings
end CFunction
