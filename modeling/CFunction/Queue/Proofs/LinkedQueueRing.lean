import CFunction.Queue.LinkedQueue
import CFunction.Misc.LinkRing

/-!
# The ring of the linked queue

What the pointer statements of `lqueue.c` do to the links: `insertNode` puts the new node
between the last node and the head, the relinking of `lqueue_dequeue_back` takes out the last
node. Reading a field of an address that holds no node gives `NULL`, so that `nextOf` and
`prevOf` are functions on all addresses.
-/

namespace CFunction.LinkedQueue
open LinkRing

def nextOf (nodes : Heap LqueueData) (p : Ptr) : Ptr := ((nodes.block p).map (·.next)).getD 0

def prevOf (nodes : Heap LqueueData) (p : Ptr) : Ptr := ((nodes.block p).map (·.prev)).getD 0

/-- The payload and length that a node carries. -/
def itemOf (nodes : Heap LqueueData) (p : Ptr) : Ptr × Int :=
  ((nodes.block p).map fun d => (d.pqdata, d.len)).getD (0, 0)

variable {nodes : Heap LqueueData} {p r v : Ptr}

theorem load_of_live (live : nodes.Live p) :
    ∃ d, nodes.load p = some d ∧ d.next = nextOf nodes p ∧ d.prev = prevOf nodes p ∧
      (d.pqdata, d.len) = itemOf nodes p := by
  obtain ⟨d, hd⟩ := Option.isSome_iff_exists.1 live
  refine ⟨d, hd, ?_, ?_, ?_⟩
  · simp [nextOf, hd]
  · simp [prevOf, hd]
  · simp [itemOf, hd]

/-! ### Fields after a write -/

@[simp] theorem nextOf_adjust_next (live : nodes.Live p) :
    nextOf (nodes.adjust p fun d => { d with next := v }) r =
      if r = p then v else nextOf nodes r := by
  obtain ⟨d, hd⟩ := Option.isSome_iff_exists.1 live
  by_cases hr : r = p
  · subst hr; simp [nextOf, hd]
  · simp [nextOf, hr]

@[simp] theorem prevOf_adjust_prev (live : nodes.Live p) :
    prevOf (nodes.adjust p fun d => { d with prev := v }) r =
      if r = p then v else prevOf nodes r := by
  obtain ⟨d, hd⟩ := Option.isSome_iff_exists.1 live
  by_cases hr : r = p
  · subst hr; simp [prevOf, hd]
  · simp [prevOf, hr]

@[simp] theorem nextOf_adjust_prev :
    nextOf (nodes.adjust p fun d => { d with prev := v }) r = nextOf nodes r := by
  by_cases hr : r = p
  · subst hr; cases h : nodes.block r <;> simp [nextOf, h]
  · simp [nextOf, hr]

@[simp] theorem prevOf_adjust_next :
    prevOf (nodes.adjust p fun d => { d with next := v }) r = prevOf nodes r := by
  by_cases hr : r = p
  · subst hr; cases h : nodes.block r <;> simp [prevOf, h]
  · simp [prevOf, hr]

@[simp] theorem itemOf_adjust_next :
    itemOf (nodes.adjust p fun d => { d with next := v }) r = itemOf nodes r := by
  by_cases hr : r = p
  · subst hr; cases h : nodes.block r <;> simp [itemOf, h]
  · simp [itemOf, hr]

@[simp] theorem itemOf_adjust_prev :
    itemOf (nodes.adjust p fun d => { d with prev := v }) r = itemOf nodes r := by
  by_cases hr : r = p
  · subst hr; cases h : nodes.block r <;> simp [itemOf, h]
  · simp [itemOf, hr]

/-- What a change of links leaves alone. -/
structure Relinked (nodes nodes' : Heap LqueueData) : Prop where
  live : ∀ r, nodes'.Live r ↔ nodes.Live r
  item : ∀ r, itemOf nodes' r = itemOf nodes r

/-- `insertNode` closes the ring over the new node, which is now before the old head. -/
theorem insertNode_spec (front : Bool) {q : Lqueue} {ps : List Ptr}
    (ring : IsRing (nextOf nodes) (prevOf nodes) ps) (live : ∀ r ∈ ps, nodes.Live r)
    (head : q.phead = ps.headD 0) (hp : nodes.Live p) (fresh : p ∉ ps) :
    ∃ nodes', insertNode front q nodes p =
        some ({ q with phead := if front ∨ ps = [] then p else q.phead }, nodes') ∧
      Relinked nodes nodes' ∧ IsRing (nextOf nodes') (prevOf nodes') (p :: ps) := by
  cases ps with
  | nil =>
    have hnull : q.phead = 0 := head
    let n1 := nodes.adjust p fun d => { d with next := p }
    have hp1 : n1.Live p := Heap.adjust_live.2 hp
    refine ⟨n1.adjust p fun d => { d with prev := p }, ?_, ⟨?_, ?_⟩, ?_⟩
    · simp only [insertNode, if_pos hnull, Heap.modify_eq hp, Option.bind_eq_bind,
        Option.bind_some, Heap.modify_eq hp1, n1]
      simp
    · intro r; simp [n1]
    · intro r; simp [n1]
    · apply isRing_singleton
      · simp [n1, hp]
      · simp [n1, hp]
  | cons h t =>
    have hhead : q.phead = h := head
    have hh : nodes.Live h := live h List.mem_cons_self
    have hnull : ¬ h = 0 := hh.ne_null
    -- the last node, found through the head's `prev`
    have hlast : prevOf nodes h ∈ h :: t := by rw [ring.prev_head]; exact List.getLast_mem _
    have hl : nodes.Live (prevOf nodes h) := live _ hlast
    have hph : h ≠ p := fun e => fresh (e ▸ List.mem_cons_self)
    have hpl : prevOf nodes h ≠ p := fun e => fresh (e ▸ hlast)
    let n1 := nodes.adjust p fun d => { d with next := h }
    let n2 := n1.adjust (prevOf nodes h) fun d => { d with next := p }
    let n3 := n2.adjust p fun d => { d with prev := prevOf nodes h }
    have hp1 : nodes.modify p (fun d => { d with next := h }) = some n1 := Heap.modify_eq hp
    have hp2 : n1.modify (prevOf nodes h) (fun d => { d with next := p }) = some n2 :=
      Heap.modify_eq (Heap.adjust_live.2 hl)
    have hp3 : n2.modify p (fun d => { d with prev := prevOf nodes h }) = some n3 :=
      Heap.modify_eq (by simp [n1, n2, hp])
    have hp4 : n3.modify h (fun d => { d with prev := p }) =
        some (n3.adjust h fun d => { d with prev := p }) :=
      Heap.modify_eq (by simp [n1, n2, n3, hh])
    obtain ⟨d1, hd1, -, hprev1, -⟩ := load_of_live (show n1.Live h by simp [n1, hh])
    obtain ⟨d2, hd2, -, hprev2, -⟩ := load_of_live (show n2.Live h by simp [n1, n2, hh])
    have hprev1 : d1.prev = prevOf nodes h := by simpa [n1] using hprev1
    have hprev2 : d2.prev = prevOf nodes h := by simpa [n1, n2] using hprev2
    refine ⟨n3.adjust h fun d => { d with prev := p }, ?_, ⟨?_, ?_⟩, ?_⟩
    · simp only [insertNode, hhead, if_neg hnull, hp1, Option.bind_eq_bind, Option.bind_some, hd1,
        hprev1, hp2, hd2, hprev2, hp3, hp4]
      cases front <;> simp [← hhead]
    · intro r; simp [n1, n2, n3]
    · intro r; simp [n1, n2, n3]
    · apply ring.insert fresh
      · refine ⟨?_, ?_⟩
        · simp [n1, n2, n3, hp, hl, hpl.symm]
        · simp [n1, n2, n3, hh]
      · refine ⟨?_, ?_⟩
        · simp [n1, n2, n3, hl]
        · simp [n1, n2, n3, hp, hh, hph.symm]
      · intro a ha hne
        have hap : a ≠ p := fun e => fresh (e ▸ ha)
        simp [n1, n2, n3, hp, hl, hne, hap]
      · intro b hb
        have hbp : b ≠ p := fun e => fresh (e ▸ List.mem_cons_of_mem _ hb)
        have hbh : b ≠ h := fun e => (List.nodup_cons.1 ring.nodup).1 (e ▸ hb)
        simp [n1, n2, n3, hp, hh, hbp, hbh]

/-- Unlinking the last node leaves the ring of the others; the node itself stays readable until
it is freed. -/
theorem unlinkBack_spec {q : Lqueue} {ps : List Ptr} {l : Ptr}
    (ring : IsRing (nextOf nodes) (prevOf nodes) (ps ++ [l]))
    (live : ∀ r ∈ ps ++ [l], nodes.Live r) (head : q.phead = (ps ++ [l]).headD 0) :
    ∃ nodes', unlinkBack q nodes = some ({ q with phead := ps.headD 0 }, nodes', l) ∧
      Relinked nodes nodes' ∧ IsRing (nextOf nodes') (prevOf nodes') ps := by
  have hl : nodes.Live l := live l (by simp)
  have turned := isRing_rotate.2 ring
  cases ps with
  | nil =>
    have hhead : q.phead = l := head
    obtain ⟨d, hd, hnext, -, -⟩ := load_of_live hl
    have hself : d.next = l := by rw [hnext]; exact (isRing_cons.1 turned).2.1.1
    refine ⟨nodes, ?_, ⟨fun _ => Iff.rfl, fun _ => rfl⟩, isRing_nil⟩
    simp only [unlinkBack, hhead, hd, Option.bind_eq_bind, Option.bind_some, if_pos hself]
    rfl
  | cons h t =>
    have hhead : q.phead = h := head
    have hh : nodes.Live h := live h (by simp)
    have hnodup := (isRing_cons.1 turned).1
    have hlh : l ≠ h := fun e => (List.nodup_cons.1 hnodup).1 (e ▸ List.mem_cons_self)
    have hlink := (List.isChain_cons_cons.1 (isRing_cons.1 turned).2.2).1
    -- the node before the last one; it is the head when only two are left
    have hk : prevOf nodes l ∈ h :: t := by
      rw [turned.prev_head, List.getLast_cons (List.cons_ne_nil h t)]; exact List.getLast_mem _
    have hkl : nodes.Live (prevOf nodes l) := live _ (List.mem_append_left _ hk)
    have hself : nextOf nodes h ≠ h := by
      intro e
      have := (turned.inverse (p := h) (by simp)).1
      rw [e, hlink.2] at this
      exact hlh this
    let n1 := nodes.adjust (prevOf nodes l) fun d => { d with next := h }
    obtain ⟨d1, hd1, hnext1, hprev1, -⟩ := load_of_live hh
    obtain ⟨d2, hd2, -, hprev2, -⟩ := load_of_live hl
    obtain ⟨d3, hd3, -, hprev3, -⟩ := load_of_live (show n1.Live h by simp [n1, hh])
    obtain ⟨d4, hd4, -, hprev4, -⟩ := load_of_live (show n1.Live l by simp [n1, hl])
    have hself1 : ¬ d1.next = h := by rw [hnext1]; exact hself
    have hprev1 : d1.prev = l := hprev1.trans hlink.2
    have hprev3 : d3.prev = l := by simpa [n1, hlink.2] using hprev3
    have hprev4 : d4.prev = prevOf nodes l := by simpa [n1] using hprev4
    have hp1 : nodes.modify (prevOf nodes l) (fun d => { d with next := h }) = some n1 :=
      Heap.modify_eq hkl
    have hp2 : n1.modify h (fun d => { d with prev := prevOf nodes l }) =
        some (n1.adjust h fun d => { d with prev := prevOf nodes l }) :=
      Heap.modify_eq (by simp [n1, hh])
    refine ⟨n1.adjust h fun d => { d with prev := prevOf nodes l }, ?_, ⟨?_, ?_⟩, ?_⟩
    · simp only [unlinkBack, hhead, hd1, Option.bind_eq_bind, Option.bind_some, if_neg hself1,
        hprev1, hd2, hprev2, hp1, hd3, hprev3, hd4, hprev4, hp2]
      simp [← hhead]
    · intro r; simp [n1]
    · intro r; simp [n1]
    · apply turned.remove
      · refine ⟨?_, ?_⟩
        · simp [n1, hkl]
        · simp [n1, hh]
      · intro a _ hne
        simp [n1, hkl, hne]
      · intro b hb
        have hbh : b ≠ h :=
          fun e => (List.nodup_cons.1 (List.nodup_cons.1 hnodup).2).1 (e ▸ hb)
        simp [n1, hh, hbh]

/-- Freeing a node that is not on the ring. -/
theorem erase_ring {ps : List Ptr} (ring : IsRing (nextOf nodes) (prevOf nodes) ps)
    (off : p ∉ ps) : IsRing (nextOf (nodes.erase p)) (prevOf (nodes.erase p)) ps := by
  apply ring.congr
  intro r hr
  have hne : r ≠ p := fun e => off (e ▸ hr)
  simp [nextOf, prevOf, hne]

/-! ### Well-formed queues -/

/-- `count` distinct live nodes, from `phead` on the ring `ps`, carry the items `xs`. -/
structure WellFormed (w : World) (ps : List Ptr) (xs : List (Ptr × Int)) : Prop where
  count_eq : w.queue.count = xs.length
  small : (xs.length : Int) ≤ 2147483647
  head : w.queue.phead = ps.headD 0
  live : ∀ p ∈ ps, w.nodes.Live p
  items : ps.map (itemOf w.nodes) = xs
  ring : IsRing (nextOf w.nodes) (prevOf w.nodes) ps

theorem WellFormed.length_eq {w : World} {ps : List Ptr} {xs : List (Ptr × Int)}
    (hw : WellFormed w ps xs) : ps.length = xs.length := by
  rw [← hw.items, List.length_map]

/-- A queue with the two nodes 10 and 20. -/
def twoElements : World where
  queue := ⟨2, 0, 10⟩
  nodes := (Heap.empty.put 10 ⟨100, 3, 20, 20⟩ (by decide)).put 20 ⟨200, 5, 10, 10⟩ (by decide)
  payload := .empty

theorem twoElements_wellFormed : WellFormed twoElements [10, 20] [(100, 3), (200, 5)] := by
  refine ⟨rfl, by decide, rfl, ?_, rfl, ?_⟩
  · intro p hp
    rcases List.mem_cons.1 hp with rfl | hp
    · rfl
    · rw [List.mem_singleton.1 hp]
      rfl
  · refine isRing_cons.2 ⟨by decide, ⟨rfl, rfl⟩, ?_⟩
    exact List.isChain_cons_cons.2 ⟨⟨rfl, rfl⟩, List.isChain_singleton 20⟩

end CFunction.LinkedQueue
