import CFunction.Queue.Proofs.LinkedQueueDeque

/-!
# Dequeueing at the front

`lqueue_dequeue_front` leaves `*pbuf` alone, and with two or more elements it frees the head
without moving `phead` on. It does what it should on the empty queue, and on a queue with one
element if `*pbuf` happens to hold the payload pointer already.
-/

namespace CFunction.LinkedQueue
open LinkRing

/-- The front element is handed out through `*pbuf` and `*plen`, which hold `out` before the
call, and its node, and nothing else, is gone. On an empty queue nothing changes. -/
def DequeuesFront (w : World) (xs : List (Ptr × Int)) (out : Ptr × Int) : Prop :=
  match xs with
  | [] => lqueueDequeueFront w 1 1 1 out = some (w, -1, out)
  | x :: xs => ∃ w' ps', lqueueDequeueFront w 1 1 1 out = some (w', 0, x) ∧
      Removed w w' w.queue.phead ∧ WellFormed w' ps' xs ∧
      (w'.queue.phead = 0 ↔ xs = []) ∧ (xs ≠ [] → w'.nodes.Live w'.queue.phead)

variable {w : World} {ps : List Ptr} {xs : List (Ptr × Int)} {out : Ptr × Int}

theorem dequeueFront_nil (hw : WellFormed w ps []) (out : Ptr × Int) :
    lqueueDequeueFront w 1 1 1 out = some (w, -1, out) := by
  have hps : ps = [] := List.length_eq_zero_iff.1 hw.length_eq
  have hnull : w.queue.phead = 0 := by rw [hw.head, hps]; rfl
  simp [lqueueDequeueFront, hnull]

/-- With one element the queue is empty afterwards, `*pbuf` is as before. -/
theorem dequeueFront_singleton {p : Ptr} {x : Ptr × Int} (hw : WellFormed w [p] [x])
    (out : Ptr × Int) :
    lqueueDequeueFront w 1 1 1 out =
      some (⟨{ w.queue with count := 0, phead := 0 }, w.nodes.erase p, w.payload⟩, 0,
        (out.1, x.2)) := by
  have hhead : w.queue.phead = p := hw.head
  have hp : w.nodes.Live p := hw.live p (List.mem_singleton_self p)
  have hnull : ¬ p = 0 := hp.ne_null
  obtain ⟨d, hd, hnext, -, hitem⟩ := load_of_live hp
  have hself : d.next = p := by
    rw [hnext]
    exact (isRing_cons.1 hw.ring).2.1.1
  have hx : itemOf w.nodes p = x := List.singleton_inj.1 hw.items
  have hlen : d.len = x.2 := congrArg Prod.snd (hitem.trans hx)
  have hcount : toInt32 (w.queue.count - 1) = 0 := by rw [hw.count_eq]; simp [toInt32]
  simp only [lqueueDequeueFront, Nat.one_ne_zero, or_self, if_false, if_neg hnull, unlinkFront,
    hhead, hd, Option.bind_eq_bind, Option.bind_some, if_pos hself, Heap.free_eq hp, hlen, hcount]

/-- With more elements `phead` still points to the node that has just been freed. -/
theorem dequeueFront_dangles {p r : Ptr} {ps : List Ptr} (hw : WellFormed w (p :: r :: ps) xs)
    {w' : World} {ret : Int} {out' : Ptr × Int}
    (done : lqueueDequeueFront w 1 1 1 out = some (w', ret, out')) :
    w'.queue.phead = p ∧ ¬ w'.nodes.Live p := by
  have hhead : w.queue.phead = p := hw.head
  have hp : w.nodes.Live p := hw.live p List.mem_cons_self
  have hnull : ¬ p = 0 := hp.ne_null
  obtain ⟨d, hd, hnext, -, -⟩ := load_of_live hp
  have hother : ¬ d.next = p := by
    obtain ⟨nodup, -, seg⟩ := isRing_cons.1 hw.ring
    rw [hnext, (List.isChain_cons_cons.1 seg).1.1]
    rintro rfl
    exact (List.nodup_cons.1 nodup).1 List.mem_cons_self
  simp only [lqueueDequeueFront, Nat.one_ne_zero, or_self, if_false, if_neg hnull, unlinkFront,
    hhead, hd, Option.bind_eq_bind, Option.bind_some, if_neg hother] at done
  obtain ⟨⟨q, nodes, ppdata⟩, hunlink, done⟩ := Option.bind_eq_some_iff.1 done
  -- the relinking leaves `phead` and the address to free as they are
  obtain ⟨n1, -, hunlink⟩ := Option.bind_eq_some_iff.1 hunlink
  obtain ⟨d1, -, hunlink⟩ := Option.bind_eq_some_iff.1 hunlink
  obtain ⟨n2, -, hunlink⟩ := Option.bind_eq_some_iff.1 hunlink
  obtain ⟨rfl, rfl, rfl⟩ : w.queue = q ∧ n2 = nodes ∧ p = ppdata := by simpa using hunlink
  obtain ⟨data, hdata, done⟩ := Option.bind_eq_some_iff.1 done
  obtain ⟨n3, hfree, done⟩ := Option.bind_eq_some_iff.1 done
  have hlive : n2.Live p := Option.isSome_iff_exists.2 ⟨data, hdata⟩
  rw [Heap.free_eq hlive] at hfree
  obtain rfl := Option.some.inj hfree
  obtain ⟨rfl, -, -⟩ : _ = w' ∧ _ ∧ _ := by simpa using done
  exact ⟨hhead, by simp⟩

/-- The element at the front is dequeued as intended exactly from the empty queue, or when it is
the only one and `*pbuf` holds its payload pointer beforehand. -/
theorem dequeuesFront_iff (hw : WellFormed w ps xs) (out : Ptr × Int) :
    DequeuesFront w xs out ↔ xs = [] ∨ ∃ x, xs = [x] ∧ out.1 = x.1 := by
  have hlen := hw.length_eq
  match ps, xs with
  | _, [] => simp [DequeuesFront, dequeueFront_nil hw]
  | [p], [x] =>
    have hexec := dequeueFront_singleton hw out
    have hhead : w.queue.phead = p := hw.head
    have hp : w.nodes.Live p := hw.live p (List.mem_singleton_self p)
    constructor
    · rintro ⟨w', ps', done, -⟩
      rw [hexec] at done
      have hout : (out.1, x.2) = x := by simpa using (Prod.mk.inj (Option.some.inj done)).2
      exact Or.inr ⟨x, rfl, congrArg (fun z => z.1) hout⟩
    · rintro (h | ⟨y, h, hout⟩)
      · cases h
      · obtain rfl := List.singleton_inj.1 h
        rw [hout] at hexec
        refine ⟨_, [], hexec, ⟨hhead ▸ hp, ?_, rfl⟩, ⟨rfl, by simp, rfl, by simp, rfl, isRing_nil⟩,
          by simp, by simp⟩
        intro r
        rw [hhead]
        exact Heap.erase_live
  | p :: r :: ps, x :: y :: xs =>
    constructor
    · rintro ⟨w', ps', done, -, -, -, live⟩
      obtain ⟨hphead, hdead⟩ := dequeueFront_dangles hw done
      have hlive := live (List.cons_ne_nil y xs)
      rw [hphead] at hlive
      exact absurd hlive hdead
    · rintro (h | ⟨z, h, -⟩) <;> cases h
  | [], _ :: _ => cases hlen
  | [_], _ :: _ :: _ => cases hlen
  | _ :: _ :: _, [_] => cases hlen

theorem dequeuesFront_iff_two : DequeuesFront twoElements [(100, 3), (200, 5)] (0, 0) ↔
    [((100 : Ptr), (3 : Int)), (200, 5)] = [] ∨
      ∃ x : Ptr × Int, [(100, 3), (200, 5)] = [x] ∧ 0 = x.1 :=
  dequeuesFront_iff twoElements_wellFormed (0, 0)

/-- With two elements the queue is left with a dangling `phead`. -/
theorem two_elements_dangle : WellFormed twoElements [10, 20] [(100, 3), (200, 5)] ∧
    ¬ DequeuesFront twoElements [(100, 3), (200, 5)] (0, 0) := by
  refine ⟨twoElements_wellFormed, ?_⟩
  rintro ⟨w', ps', done, -, -, -, live⟩
  obtain ⟨hphead, hdead⟩ := dequeueFront_dangles twoElements_wellFormed done
  have hlive := live (List.cons_ne_nil _ _)
  rw [hphead] at hlive
  exact hdead hlive

end CFunction.LinkedQueue
