import CFunction.Queue.Proofs.LinkedQueueRing

/-!
# Tearing down a linked queue

The loop of `lqueue_destroy` frees the head and moves on to its `next`, but it never relinks the
ring: the last node still leads to the first one, which has been freed by then. So the loop does
its work on a queue with at most one element, and reads a freed node on every other.
-/

namespace CFunction.LinkedQueue
open LinkRing

variable {σ : Type} {destroy : Option (σ → Ptr → σ)} {w : World} {ps : List Ptr}
  {xs : List (Ptr × Int)}

/-- A teardown that ends, having called the callback, if there is one, on every payload in order
and freed every node once, and leaves an empty queue. A loop that reads or frees a node that it
has freed has no result. -/
def ReleasesAll (destroy : Option (σ → Ptr → σ)) (w : World) (env : σ) (ps : List Ptr)
    (xs : List (Ptr × Int)) : Prop :=
  ∃ fuel t, lqueueDestroy destroy fuel w env 1 = some t ∧
    t.called = (if destroy.isSome then xs.map Prod.fst else []) ∧ t.freed = ps ∧
    (∀ r, t.nodes.Live r ↔ r ∉ ps ∧ w.nodes.Live r) ∧
    t.queue.phead = 0 ∧ t.queue.count = 0 ∧ t.queue.size = 0

/-- One round frees the head and leaves its `next` as the new head, or `NULL` if that is the head
itself. -/
theorem destroyRound_of_live {t : Teardown σ} (live : t.nodes.Live t.queue.phead) :
    ∃ t', destroyRound destroy t = some t' ∧
      t'.queue.phead = (if t.queue.phead = nextOf t.nodes t.queue.phead then 0
        else nextOf t.nodes t.queue.phead) ∧
      t'.nodes = t.nodes.erase t.queue.phead ∧ t'.freed = t.freed ++ [t.queue.phead] ∧
      t'.called = t.called ++
        (if destroy.isSome then [(itemOf t.nodes t.queue.phead).1] else []) := by
  obtain ⟨d, hd, hnext, -, hitem⟩ := load_of_live live
  have hpqdata : d.pqdata = (itemOf t.nodes t.queue.phead).1 := congrArg Prod.fst hitem
  cases destroy with
  | none =>
    refine ⟨{ t with
      queue := { t.queue with phead := if t.queue.phead = d.next then 0 else d.next }
      nodes := t.nodes.erase t.queue.phead
      freed := t.freed ++ [t.queue.phead] }, ?_, by rw [hnext], rfl, rfl, by simp⟩
    simp [destroyRound, hd, Teardown.callback, Heap.free_eq live]
  | some f =>
    refine ⟨{ t with
      queue := { t.queue with phead := if t.queue.phead = d.next then 0 else d.next }
      nodes := t.nodes.erase t.queue.phead
      env := f t.env d.pqdata
      called := t.called ++ [d.pqdata]
      freed := t.freed ++ [t.queue.phead] }, ?_, by rw [hnext], rfl, rfl, by simp [hpqdata]⟩
    simp [destroyRound, hd, Teardown.callback, Heap.free_eq live]

theorem destroyRound_of_freed {t : Teardown σ} (freed : ¬ t.nodes.Live t.queue.phead) :
    destroyRound destroy t = none := by
  have hload : t.nodes.load t.queue.phead = none := by simpa [Heap.Live, Heap.load] using freed
  simp [destroyRound, hload]

/-- Once the way ahead ends at a freed node, the loop has no result. -/
theorem destroyLoop_dangling {last : Ptr} (ne_null : last ≠ 0) {rest : List Ptr}
    {t : Teardown σ} (head : t.queue.phead = rest.headD last) (nodup : rest.Nodup)
    (live : ∀ r ∈ rest, t.nodes.Live r) (freed : ¬ t.nodes.Live last)
    (path : Path (nextOf t.nodes) last rest) (fuel : Nat) :
    destroyLoop destroy fuel t = none := by
  induction rest generalizing t fuel with
  | nil =>
    cases fuel with
    | zero => rfl
    | succ fuel =>
      have hhead : t.queue.phead = last := head
      rw [destroyLoop, if_pos (hhead ▸ ne_null), destroyRound_of_freed (hhead ▸ freed)]
      rfl
  | cons p rest ih =>
    cases fuel with
    | zero => rfl
    | succ fuel =>
      have hhead : t.queue.phead = p := head
      have hp : t.nodes.Live p := live p List.mem_cons_self
      obtain ⟨hfresh, nodup⟩ := List.nodup_cons.1 nodup
      obtain ⟨hnext, path⟩ := path
      have hne : ∀ r ∈ rest, r ≠ p := fun r hr e => hfresh (e ▸ hr)
      have hmove : p ≠ rest.headD last := by
        cases rest with
        | nil => exact fun e => freed ((show p = last from e) ▸ hp)
        | cons q rest => exact (hne q List.mem_cons_self).symm
      obtain ⟨t', hround, hphead, hnodes, -, -⟩ :=
        @destroyRound_of_live σ destroy t (hhead ▸ hp)
      rw [hhead, hnext, if_neg hmove] at hphead
      rw [hhead] at hnodes
      rw [destroyLoop, if_pos (hhead ▸ hp.ne_null), hround]
      apply ih hphead nodup
      · intro r hr
        rw [hnodes, Heap.erase_live]
        exact ⟨hne r hr, live r (List.mem_cons_of_mem p hr)⟩
      · rw [hnodes, Heap.erase_live]
        exact fun h => freed h.2
      · apply path.congr
        intro r hr
        rw [hnodes]
        simp [nextOf, hne r hr]

/-- With two or more elements the node freed first is reached again. -/
theorem destroyLoop_two {p q : Ptr} {ps : List Ptr} (hw : WellFormed w (p :: q :: ps) xs)
    (env : σ) (fuel : Nat) :
    destroyLoop destroy fuel ⟨w.queue, w.nodes, env, [], []⟩ = none := by
  cases fuel with
  | zero => rfl
  | succ fuel =>
    have hhead : w.queue.phead = p := hw.head
    have hp : w.nodes.Live p := hw.live p List.mem_cons_self
    obtain ⟨hnext, path⟩ := hw.ring.path
    obtain ⟨hfresh, nodup⟩ := List.nodup_cons.1 hw.ring.nodup
    have hne : ∀ r ∈ q :: ps, r ≠ p := fun r hr e => hfresh (e ▸ hr)
    have hmove : p ≠ q := (hne q List.mem_cons_self).symm
    obtain ⟨t', hround, hphead, hnodes, -, -⟩ :=
      @destroyRound_of_live σ destroy ⟨w.queue, w.nodes, env, [], []⟩ (hhead ▸ hp)
    dsimp only at hphead hnodes
    rw [hhead, hnext, List.headD_cons, if_neg hmove] at hphead
    rw [hhead] at hnodes
    rw [destroyLoop, if_pos (hhead ▸ hp.ne_null), hround]
    apply destroyLoop_dangling hp.ne_null hphead nodup
    · intro r hr
      rw [hnodes, Heap.erase_live]
      exact ⟨hne r hr, hw.live r (List.mem_cons_of_mem p hr)⟩
    · rw [hnodes, Heap.erase_live]
      exact fun h => h.1 rfl
    · apply path.congr
      intro r hr
      rw [hnodes]
      simp [nextOf, hne r hr]

theorem releasesAll_nil (hw : WellFormed w [] []) (env : σ) :
    ReleasesAll destroy w env [] [] := by
  have hnull : w.queue.phead = 0 := hw.head
  refine ⟨1, ⟨{ w.queue with count := 0, size := 0 }, w.nodes, env, [], []⟩, ?_, ?_, rfl, ?_,
    hnull, rfl, rfl⟩
  · simp [lqueueDestroy, destroyLoop, hnull]
  · cases destroy <;> rfl
  · simp

theorem releasesAll_singleton {p : Ptr} {x : Ptr × Int} (hw : WellFormed w [p] [x]) (env : σ) :
    ReleasesAll destroy w env [p] [x] := by
  have hhead : w.queue.phead = p := hw.head
  have hp : w.nodes.Live p := hw.live p (List.mem_singleton_self p)
  have hself : p = nextOf w.nodes p := (isRing_cons.1 hw.ring).2.1.1.symm
  have hx : itemOf w.nodes p = x := List.singleton_inj.1 hw.items
  obtain ⟨t', hround, hphead, hnodes, hfreed, hcalled⟩ :=
    @destroyRound_of_live σ destroy ⟨w.queue, w.nodes, env, [], []⟩ (hhead ▸ hp)
  dsimp only at hphead hnodes hfreed hcalled
  rw [hhead, if_pos hself] at hphead
  rw [hhead] at hnodes hfreed hcalled
  refine ⟨2, { t' with queue := { t'.queue with count := 0, size := 0 } }, ?_, ?_, hfreed, ?_,
    hphead, rfl, rfl⟩
  · have hnull : ¬ w.queue.phead = 0 := hhead ▸ hp.ne_null
    simp [lqueueDestroy, destroyLoop, hnull, hround, hphead]
  · rw [hcalled, hx]
    rfl
  · intro r
    simp [hnodes]

/-- Tearing down releases everything exactly when there is at most one element, whatever the
callback. -/
theorem releasesAll_iff (hw : WellFormed w ps xs) (destroy : Option (σ → Ptr → σ)) (env : σ) :
    ReleasesAll destroy w env ps xs ↔ xs.length ≤ 1 := by
  have hlen := hw.length_eq
  match ps, xs with
  | [], [] => exact ⟨fun _ => Nat.zero_le 1, fun _ => releasesAll_nil hw env⟩
  | [p], [x] => exact ⟨fun _ => le_refl 1, fun _ => releasesAll_singleton hw env⟩
  | p :: q :: ps, x :: y :: xs =>
    constructor
    · rintro ⟨fuel, t, done, -⟩
      simp [lqueueDestroy, destroyLoop_two hw env fuel] at done
    · intro h
      simp at h
  | [], _ :: _ => cases hlen
  | _ :: _, [] => cases hlen
  | [_], _ :: _ :: _ => cases hlen
  | _ :: _ :: _, [_] => cases hlen

/-- The callback of the sample program, which frees the payload. -/
theorem releasesAll_iff_ext :
    ReleasesAll (some fun heap p => heap.bind fun heap => lqueueDataDestroyExt heap p) twoElements
      (some twoElements.payload) [10, 20] [(100, 3), (200, 5)] ↔
        [((100 : Ptr), (3 : Int)), (200, 5)].length ≤ 1 :=
  releasesAll_iff twoElements_wellFormed _ _

/-- With two elements the first node is read after it has been freed. -/
theorem two_elements_not_released : WellFormed twoElements [10, 20] [(100, 3), (200, 5)] ∧
    ¬ ReleasesAll (none : Option (Unit → Ptr → Unit)) twoElements () [10, 20]
      [(100, 3), (200, 5)] := by
  refine ⟨twoElements_wellFormed, ?_⟩
  rintro ⟨fuel, t, done, -⟩
  simp [lqueueDestroy, destroyLoop_two twoElements_wellFormed () fuel] at done

end CFunction.LinkedQueue
