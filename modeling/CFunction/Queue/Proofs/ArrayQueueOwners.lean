import CFunction.Queue.Proofs.ArrayQueueDestroy

/-!
# Who owns the payload buffers

`squeue_enqueue_ext` allocates before it knows whether there is room. As long as it is not called
on a full queue, every buffer it has allocated is either in a slot or has been handed out; a call
that finds the queue full drops the only pointer to its buffer.
-/

namespace CFunction.ArrayQueue

variable {size : Nat} {h₀ : Payloads} {o : Owner} {es : List OwnEvent}

/-- `p` has been allocated since the heap was `h₀` and has not been freed. -/
def Tracked (h₀ heap : Payloads) (p : Ptr) : Prop := heap.Live p ∧ ¬ h₀.Live p

/-- An occupied slot of `q` refers to `p`. -/
def Referenced (q : Squeue) (p : Ptr) : Prop :=
  ∃ i : Nat, i < q.count ∧ (q.load ((q.head + i) % q.size)).map SqueueData.pdata = some p

/-- After the calls `es` the buffers are those in the slots and those handed out. -/
def Accounted (h₀ : Payloads) (es : List OwnEvent) (o : Owner) : Prop :=
  ∀ p, Tracked h₀ o.heap p ↔
    Referenced o.queue p ∨ p ∈ (handedOut es).map SqueueData.pdata

/-- An enqueue that fails leaves the allocated buffers as they were. -/
def OwnEvent.KeepsBuffers : OwnEvent → Prop
  | .enqueueExt before _ _ _ ret after =>
    ret ≠ 0 → ∀ p, after.heap.Live p ↔ before.heap.Live p
  | .dequeue _ _ _ _ => True

/-- `squeue_enqueue_ext` gets its memory, but is called on a full queue. -/
def OwnEvent.Overfills : OwnEvent → Prop
  | .enqueueExt before _ _ m _ _ => squeueIsFull before.queue ∧ m.isSome
  | .dequeue _ _ _ _ => False

/-- In the run `es` from `start` to `o`, and after a final `squeue_destroy` with
`squeue_data_destroy`, no buffer is lost. -/
structure LosesNothing (h₀ : Payloads) (start : Owner) (es : List OwnEvent) (o : Owner) :
    Prop where
  begins : Accounted h₀ [] start
  calls : Throughout (fun past e => Accounted h₀ (past ++ [e]) e.after ∧ e.KeepsBuffers) es
  ends : ∀ data, ∃ t fuel,
    squeueDestroy (some squeueDataDestroy) fuel o.queue o.heap data = some t ∧
      Accounted h₀ es ⟨t.queue, t.env⟩

/-- The owners of the buffers: the slots, which hold `xs`, and the callers, who were handed
`out`. -/
structure Owned (size : Nat) (h₀ : Payloads) (out : List SqueueData) (o : Owner)
    (xs : List SqueueData) : Prop where
  alive : Alive size o.queue xs
  nodup : ((xs ++ out).map SqueueData.pdata).Nodup
  tracked : ∀ p, Tracked h₀ o.heap p ↔ p ∈ (xs ++ out).map SqueueData.pdata
  kept : ∀ p, h₀.Live p → o.heap.Live p

theorem handedOut_concat (es : List OwnEvent) (e : OwnEvent) :
    handedOut (es ++ [e]) = handedOut es ++ handedOut [e] := List.filterMap_append

theorem Contents.referenced {q : Squeue} {xs : List SqueueData} (hq : Contents q xs) (p : Ptr) :
    Referenced q p ↔ p ∈ xs.map SqueueData.pdata := by
  rw [List.mem_map]
  constructor
  · rintro ⟨i, hi, hload⟩
    have hlt : i < xs.length := by have := hq.count_eq; omega
    rw [hq.slots i hlt, List.getElem?_eq_getElem hlt] at hload
    exact ⟨xs[i], List.getElem_mem hlt, Option.some.inj hload⟩
  · rintro ⟨x, hx, rfl⟩
    obtain ⟨i, hlt, rfl⟩ := List.mem_iff_getElem.1 hx
    refine ⟨i, by have := hq.count_eq; omega, ?_⟩
    rw [hq.slots i hlt, List.getElem?_eq_getElem hlt]
    rfl

theorem Owned.accounted {xs : List SqueueData} (own : Owned size h₀ (handedOut es) o xs) :
    Accounted h₀ es o := by
  intro p
  rw [own.tracked, own.alive.contents.referenced, List.map_append, List.mem_append]

/-- What `squeue_enqueue_ext` does, in the order of its exits: no memory, no room, success. -/
theorem squeueEnqueueExt_cases {heap heap' : Payloads} {q q' : Squeue} {src : List UInt8}
    {length : Nat} {m : Option Ptr} {ret : Int}
    (done : squeueEnqueueExt heap q src length m = some (heap', q', ret)) :
    (m = none ∧ heap' = heap ∧ q' = q ∧ ret = -10) ∨
      ∃ p, m = some p ∧ (∃ fresh : heap.Fresh p, heap' = heap.put p (src.take length) fresh.1) ∧
        enqueueLocked q ⟨p, length⟩ = some (q', ret) := by
  cases m with
  | none =>
    simp [squeueEnqueueExt, enqueueExtCopy] at done
    obtain ⟨rfl, rfl, rfl⟩ := done
    exact .inl ⟨rfl, rfl, rfl, rfl⟩
  | some p =>
    refine .inr ⟨p, rfl, ?_⟩
    simp only [squeueEnqueueExt, enqueueExtCopy] at done
    split at done
    · by_cases fresh : heap.Fresh p
      · simp only [Heap.malloc_eq fresh, Option.bind_eq_bind, Option.bind_some,
          Option.bind_eq_some_iff] at done
        obtain ⟨⟨q₁, ret₁⟩, hlocked, hout⟩ := done
        simp only [Option.some.injEq, Prod.mk.injEq] at hout
        obtain ⟨rfl, rfl, rfl⟩ := hout
        exact ⟨⟨fresh, rfl⟩, hlocked⟩
      · simp [Heap.malloc, fresh] at done
    · simp at done

/-! ## One call -/

variable {out xs : List SqueueData}

/-- A new buffer goes into the slot at `tail`. -/
theorem Owned.enqueueExt {p : Ptr} {bytes : List UInt8} {length : Nat}
    (own : Owned size h₀ out o xs) (int : size ≤ 2147483647) (room : xs.length < size)
    (fresh : o.heap.Fresh p) :
    ∃ q', enqueueLocked o.queue ⟨p, length⟩ = some (q', 0) ∧
      Owned size h₀ out ⟨q', o.heap.put p bytes fresh.1⟩ (xs ++ [⟨p, length⟩]) := by
  obtain ⟨q', hlocked, hq'⟩ := enqueueLocked_room own.alive.holds int room ⟨p, length⟩
  have hdead : ¬ o.heap.Live p := fun live => live.ne_fresh fresh rfl
  have hperm : ((xs ++ [(⟨p, length⟩ : SqueueData)] ++ out).map SqueueData.pdata).Perm
      (p :: (xs ++ out).map SqueueData.pdata) := by
    rw [List.append_assoc, List.singleton_append]
    exact (List.perm_middle (a := (⟨p, length⟩ : SqueueData))).map SqueueData.pdata
  refine ⟨q', hlocked, ⟨⟨hq', fun h0 => absurd h0 (by omega)⟩, ?_, ?_, ?_⟩⟩
  · rw [hperm.nodup_iff, List.nodup_cons]
    exact ⟨fun hmem => hdead ((own.tracked p).2 hmem).1, own.nodup⟩
  · intro r
    rw [hperm.mem_iff, List.mem_cons, ← own.tracked, Tracked, Tracked, Heap.put_live, or_and_right]
    apply or_congr_left
    refine ⟨And.left, ?_⟩
    rintro rfl
    exact ⟨rfl, fun live => hdead (own.kept _ live)⟩
  · intro r live
    rw [Heap.put_live]
    exact .inr (own.kept r live)

/-- The oldest item passes from its slot to the caller. -/
theorem Owned.dequeue {x : SqueueData} (own : Owned size h₀ out o (x :: xs))
    (int : size ≤ 2147483647) :
    ∃ q', dequeueLocked o.queue = some (q', 0, some x) ∧
      Owned size h₀ (out ++ [x]) ⟨q', o.heap⟩ xs := by
  obtain ⟨q', hlocked, hq', -⟩ := own.alive.dequeue int
  have hperm : ((xs ++ (out ++ [x])).map SqueueData.pdata).Perm
      ((x :: xs ++ out).map SqueueData.pdata) := by
    apply List.Perm.map
    rw [← List.append_assoc]
    exact List.perm_append_singleton x (xs ++ out)
  refine ⟨q', hlocked, ⟨hq', hperm.nodup_iff.2 own.nodup, fun r => ?_, own.kept⟩⟩
  rw [hperm.mem_iff]
  exact own.tracked r

/-- A final teardown frees the buffers in the slots and leaves those handed out. -/
theorem Owned.teardown (own : Owned size h₀ (handedOut es) o xs) (int : size ≤ 2147483647)
    (data : SqueueData) : ∃ t fuel,
      squeueDestroy (some squeueDataDestroy) fuel o.queue o.heap data = some t ∧
        Accounted h₀ es ⟨t.queue, t.env⟩ := by
  have hnodup := own.nodup
  rw [List.map_append, List.nodup_append] at hnodup
  obtain ⟨hxs, -, hdisj⟩ := hnodup
  obtain ⟨heap', hfold, hblock⟩ := foldlM_squeueDataDestroy xs o.heap
    (fun p hp => by
      obtain ⟨-, x, hx, rfl⟩ := mem_payloads.1 hp
      exact ((own.tracked _).2 (List.mem_map_of_mem (List.mem_append_left _ hx))).1)
    (hxs.filter _)
  obtain ⟨t, hrun, -, rfl, gone⟩ := own.alive.teardown int data hfold
  refine ⟨t, xs.length + 1, by rw [hrun, if_pos (Nat.lt_succ_self _)], fun p => ?_⟩
  rw [gone.contents.referenced, List.map_nil]
  have hlive : t.env.Live p ↔ p ∉ payloads xs ∧ o.heap.Live p := by
    simp only [Heap.Live, hblock]
    split <;> simp_all
  have htracked := own.tracked p
  rw [List.map_append, List.mem_append] at htracked
  constructor
  · rintro ⟨live, new⟩
    obtain ⟨hfree, live⟩ := hlive.1 live
    rcases htracked.1 ⟨live, new⟩ with hslot | hcaller
    · obtain ⟨x, hx, rfl⟩ := List.mem_map.1 hslot
      exact absurd (mem_payloads.2 ⟨live.ne_null, x, hx, rfl⟩) hfree
    · exact .inr hcaller
  · rintro (hslot | hcaller)
    · exact absurd hslot (by simp)
    · obtain ⟨live, new⟩ := htracked.2 (.inr hcaller)
      refine ⟨hlive.2 ⟨fun hp => ?_, live⟩, new⟩
      obtain ⟨-, x, hx, rfl⟩ := mem_payloads.1 hp
      exact hdisj _ (List.mem_map_of_mem hx) _ hcaller rfl

/-- One call that does not allocate for a full queue. -/
theorem Owned.step {o' : Owner} {e : OwnEvent} (own : Owned size h₀ (handedOut es) o xs)
    (int : size ≤ 2147483647) (hstep : OwnStep o e o') (fits : ¬ e.Overfills) :
    (∃ ys, Owned size h₀ (handedOut (es ++ [e])) o' ys) ∧ e.after = o' ∧ e.KeepsBuffers := by
  have hcount := own.alive.holds.count_eq
  have hsize := own.alive.holds.size_eq
  rw [handedOut_concat]
  cases hstep with
  | @enqueueExt src length m heap q ret done =>
    rw [show handedOut [OwnEvent.enqueueExt o src length m ret ⟨q, heap⟩] = [] from rfl,
      List.append_nil]
    rcases squeueEnqueueExt_cases done with ⟨rfl, rfl, rfl, rfl⟩ | ⟨p, rfl, ⟨fresh, rfl⟩, hlocked⟩
    · exact ⟨⟨xs, own⟩, rfl, fun _ _ => Iff.rfl⟩
    · have hroom : xs.length < size := by
        have hfits := own.alive.holds.fits
        have hne : ¬ o.queue.count = o.queue.size := by
          simpa [OwnEvent.Overfills, squeueIsFull] using fits
        omega
      obtain ⟨q', hlocked', own'⟩ := own.enqueueExt int hroom fresh
      obtain ⟨rfl, rfl⟩ := Prod.mk.inj (Option.some.inj (hlocked.symm.trans hlocked'))
      exact ⟨⟨_, own'⟩, rfl, fun h => absurd rfl h⟩
  | @dequeue q ret item done =>
    refine ⟨?_, rfl, trivial⟩
    cases xs with
    | nil =>
      have hnil := dequeueLocked_nil own.alive.holds
      obtain ⟨rfl, hrest⟩ := Prod.mk.inj (Option.some.inj (done.symm.trans hnil))
      obtain ⟨rfl, rfl⟩ := Prod.mk.inj hrest
      rw [show handedOut [OwnEvent.dequeue o (-1) none ⟨o.queue, o.heap⟩] = [] from rfl,
        List.append_nil]
      exact ⟨[], own⟩
    | cons x xs =>
      obtain ⟨q', hlocked, own'⟩ := own.dequeue int
      obtain ⟨rfl, hrest⟩ := Prod.mk.inj (Option.some.inj (done.symm.trans hlocked))
      obtain ⟨rfl, rfl⟩ := Prod.mk.inj hrest
      exact ⟨xs, own'⟩

/-! ## Runs -/

/-- A call for a full queue has allocated a buffer that nobody refers to afterwards. -/
theorem not_keepsBuffers {o' : Owner} {e : OwnEvent} (hstep : OwnStep o e o')
    (overfills : e.Overfills) : ¬ e.KeepsBuffers := by
  intro keeps
  cases hstep with
  | @enqueueExt src length m heap q ret done =>
    obtain ⟨hfull, hm⟩ := overfills
    rcases squeueEnqueueExt_cases done with ⟨rfl, -⟩ | ⟨p, rfl, ⟨fresh, rfl⟩, hlocked⟩
    · exact absurd hm (by simp)
    · have hlt : ¬ o.queue.count < o.queue.size := by
        have hcount : o.queue.count = o.queue.size := by simpa [squeueIsFull] using hfull
        omega
      rw [enqueueLocked, if_neg hlt] at hlocked
      obtain ⟨rfl, rfl⟩ := Prod.mk.inj (Option.some.inj hlocked)
      have live : o.heap.Live p :=
        (keeps (by simp) p).1 ((Heap.put_live fresh.1 (r := p)).2 (.inl rfl))
      exact live.ne_fresh fresh rfl
  | dequeue done => exact overfills

theorem owned_start {q₀ q : Squeue} {size : Int} {ok : Bool}
    (init : squeueInit q₀ size ok = (q, 0)) (h₀ : Payloads) :
    Owned size.toNat h₀ [] ⟨q, h₀⟩ [] := by
  refine ⟨alive_init init, by simp, fun p => ?_, fun _ live => live⟩
  simp [Tracked]

/-- A run of `squeue_enqueue_ext` and `squeue_dequeue`, with the final teardown, loses no buffer
exactly if `squeue_enqueue_ext` never gets memory for a queue that is full. -/
theorem own_run_iff {q₀ q : Squeue} {size : Int} {ok : Bool} (int : InInt size)
    (init : squeueInit q₀ size ok = (q, 0)) {h₀ : Payloads} {es : List OwnEvent} {o : Owner}
    (run : Run OwnStep ⟨q, h₀⟩ es o) :
    LosesNothing h₀ ⟨q, h₀⟩ es o ↔ ∀ e ∈ es, ¬ e.Overfills := by
  have hint : size.toNat ≤ 2147483647 := by have := int.2; omega
  have start := owned_start init h₀
  constructor
  · intro nothing
    have hcalls := nothing.calls
    clear nothing
    induction run with
    | nil => exact fun e he => absurd he (by simp)
    | @snoc es o o' e run hstep ih =>
      obtain ⟨hold, -, keeps⟩ := (throughout_concat_iff _ _).1 hcalls
      intro d hd
      rcases List.mem_append.1 hd with hd | hd
      · exact ih hold d hd
      · rw [List.mem_singleton.1 hd]
        exact fun overfills => not_keepsBuffers hstep overfills keeps
  · intro fits
    suffices h : (∃ xs, Owned size.toNat h₀ (handedOut es) o xs) ∧
        Throughout (fun past e => Accounted h₀ (past ++ [e]) e.after ∧ e.KeepsBuffers) es by
      obtain ⟨⟨xs, own⟩, hcalls⟩ := h
      exact ⟨start.accounted, hcalls, own.teardown hint⟩
    induction run with
    | nil => exact ⟨⟨[], start⟩, throughout_nil⟩
    | @snoc es o o' e run hstep ih =>
      obtain ⟨⟨xs, own⟩, hcalls⟩ := ih fun d hd => fits d (List.mem_append_left _ hd)
      obtain ⟨⟨ys, own'⟩, rfl, keeps⟩ :=
        own.step hint hstep (fits e (List.mem_append_right _ (List.mem_singleton_self e)))
      exact ⟨⟨ys, own'⟩, (throughout_concat_iff _ _).2 ⟨hcalls, own'.accounted, keeps⟩⟩

/-- One slot: an enqueue, the dequeue that makes room, and an enqueue without memory. -/
theorem own_run_iff_one_slot : ∃ (es : List OwnEvent) (o : Owner) (q : Squeue),
    handedOut es = [⟨7, 1⟩] ∧
      (LosesNothing .empty ⟨q, .empty⟩ es o ↔ ∀ e ∈ es, ¬ e.Overfills) := by
  let q₀ : Squeue := ⟨5, 5, 5, 5, none⟩
  let q : Squeue := ⟨0, 0, 0, 1, some [⟨0, 0⟩]⟩
  have init : squeueInit q₀ 1 true = (q, 0) := by decide
  have start : Run OwnStep ⟨q, .empty⟩ [] ⟨q, .empty⟩ := .nil
  have run := ((start.snoc
    (@OwnStep.enqueueExt _ [65] 1 (some 7) _ _ _ rfl)).snoc
    (.dequeue rfl)).snoc
    (@OwnStep.enqueueExt _ [66] 1 none _ _ _ rfl)
  exact ⟨_, _, _, rfl, own_run_iff (by decide) init run⟩

/-- The second buffer allocated for a queue with one slot is lost. -/
theorem own_run_loses : ∃ (q₀ q : Squeue) (es : List OwnEvent) (o : Owner),
    squeueInit q₀ 1 true = (q, 0) ∧ Run OwnStep ⟨q, .empty⟩ es o ∧
      ¬ LosesNothing .empty ⟨q, .empty⟩ es o := by
  let q₀ : Squeue := ⟨5, 5, 5, 5, none⟩
  let q : Squeue := ⟨0, 0, 0, 1, some [⟨0, 0⟩]⟩
  have start : Run OwnStep ⟨q, .empty⟩ [] ⟨q, .empty⟩ := .nil
  have run := (start.snoc (@OwnStep.enqueueExt _ [65] 1 (some 7) _ _ _ rfl)).snoc
    (@OwnStep.enqueueExt _ [66] 1 (some 8) _ _ _ rfl)
  refine ⟨q₀, q, _, _, by decide, run, fun nothing => ?_⟩
  obtain ⟨-, -, keeps⟩ := (throughout_concat_iff _ _).1 nothing.calls
  -- the failed call has left a buffer at `8`
  exact Bool.false_ne_true ((keeps (by decide) 8).1 rfl)

end CFunction.ArrayQueue
