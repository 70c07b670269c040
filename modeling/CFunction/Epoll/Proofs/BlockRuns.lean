import CFunction.Epoll.EpollBlock
import CFunction.Misc.Notices

/-!
# The edge-triggered loop reads everything

The bytes of a client and its end are items that wait, in their order, and the ready list is the
notice of them. `EPOLL_CTL_ADD` looks at what is there.
-/

namespace CFunction
namespace EpollBlock

open CString Notices

variable {es : List Event} {s s' : State} {e : Event}

/-! ### Histories -/

def Event.sent : Event → Bytes
  | .send data => data
  | _ => []

def Event.received : Event → Bytes
  | .recv data => data
  | _ => []

/-- What the client has sent. -/
def sent (es : List Event) : Bytes := es.flatMap Event.sent

/-- What `recv` has given. -/
def received (es : List Event) : Bytes := es.flatMap Event.received

theorem sent_concat (es : List Event) (e : Event) : sent (es ++ [e]) = sent es ++ e.sent := by
  rw [sent, List.flatMap_append, List.flatMap_singleton, sent]

theorem received_concat (es : List Event) (e : Event) :
    received (es ++ [e]) = received es ++ e.received := by
  rw [received, List.flatMap_append, List.flatMap_singleton, received]

/-! ### What a step does -/

theorem send_cases {data : Bytes} (h : send s data = some s') : data ≠ [] ∧ s.ended = none ∧
    s' = { s with bytes := s.bytes ++ data, ready := s.added } := by
  unfold send at h
  split at h
  · rename_i hgo
    exact ⟨hgo.1, hgo.2, (Option.some.inj h).symm⟩
  · cases h

theorem hangUp_cases {how : End} (h : hangUp s how = some s') : s.ended = none ∧
    s' = { s with ended := some how, ready := s.added } := by
  unfold hangUp at h
  split at h
  · rename_i hgo
    exact ⟨hgo, (Option.some.inj h).symm⟩
  · cases h

theorem addfdToEpoll_cases (h : addfdToEpoll s = some s') : s.added = false ∧
    s' = { s with added := true, ready := s.readable } := by
  unfold addfdToEpoll at h
  split at h
  · cases h
  · rename_i hno
    exact ⟨Bool.eq_false_iff.2 hno, (Option.some.inj h).symm⟩

theorem epollWait_cases (h : epollWait s = some s') : s.ready = true ∧ s.pc = .idle ∧
    s' = { s with ready := false, pc := if s.readable then .recv else .idle } := by
  unfold epollWait at h
  split at h
  · rename_i hgo
    exact ⟨hgo.1, hgo.2, (Option.some.inj h).symm⟩
  · cases h

theorem recvBytes_cases {n : Nat} {data : Bytes} (h : recvBytes s n = some (s', data)) :
    s.pc = .recv ∧ data ≠ [] ∧ data.length < MAX_BUFFER_SIZE ∧
      ∃ rest, s.bytes = data ++ rest ∧ s' = { s with bytes := rest } := by
  unfold recvBytes at h
  split at h
  · rename_i hgo
    obtain ⟨hpc, hpos, hle, hroom⟩ := hgo
    obtain ⟨rfl, rfl⟩ := Prod.mk.inj (Option.some.inj h)
    have hlen : (s.bytes.take n).length = n := List.length_take_of_le hle
    refine ⟨hpc, ?_, ?_, _, (List.take_append_drop n s.bytes).symm, rfl⟩
    · rw [← List.length_pos_iff, hlen]
      exact hpos
    · rw [hlen]
      exact Nat.lt_of_le_of_lt hroom (Nat.lt_succ_self 4)
  · cases h

theorem recvNone_cases (h : recvNone s = some s') : s.pc = .recv ∧ s.bytes = [] ∧
    s' = { s with pc := if s.ended.isSome then .close else .idle } := by
  unfold recvNone at h
  split at h
  · rename_i hgo
    exact ⟨hgo.1, hgo.2, (Option.some.inj h).symm⟩
  · cases h

theorem close_cases (h : close s = some s') : s.pc = .close ∧
    s' = { s with pc := .idle, ready := false, closed := true } := by
  unfold close at h
  split at h
  · rename_i hgo
    exact ⟨hgo, (Option.some.inj h).symm⟩
  · cases h

/-! ### The simulation -/

/-- The end of the client has not been read yet. -/
def State.endWaits (s : State) : Bool := s.ended.isSome && s.pc != .close && ! s.closed

/-- What waits for `recv`, with the end of the client behind the bytes. -/
def State.waiting (s : State) : List (Option UInt8) :=
  s.bytes.map some ++ if s.endWaits then [none] else []

theorem waiting_eq_nil_iff : s.waiting = [] ↔ s.bytes = [] ∧ s.endWaits = false := by
  rw [State.waiting, List.append_eq_nil_iff, List.map_eq_nil_iff]
  cases s.endWaits <;> simp

/-- Outside `close`, the descriptor is readable if something waits. -/
theorem readable_eq (hpc : s.pc ≠ .close) : s.readable = ! s.waiting.isEmpty := by
  have hend : s.endWaits = (s.ended.isSome && ! s.closed) := by
    rw [State.endWaits, bne_iff_ne.2 hpc, Bool.and_true]
  rw [State.readable, State.waiting, hend]
  cases s.bytes with
  | nil => cases (s.ended.isSome && ! s.closed) <;> rfl
  | cons c bytes => rfl

/-- The notice that a step is. -/
def Event.notice : Event → Option (Notices.Event (Option UInt8))
  | .send data => some (.arrive (data.map some))
  | .hangUp _ => some (.arrive [none])
  | .add => some .listen
  | .wait true => some .start
  | .wait false => none
  | .recv data => some (.take (data.map some))
  | .recvNone true => some (.take [none])
  | .recvNone false => some .finish
  | .close => some .finish

structure Represents (s : State) (a : Notices.State (Option UInt8)) : Prop where
  waiting : a.waiting = s.waiting
  listening : a.listening = s.added
  taking : a.taking = (s.pc != .idle)
  pending : s.ready = true → a.pending = true
  ready : a.pending = true → a.waiting ≠ [] → s.ready = true
  closing : s.pc = .close → s.ended.isSome = true ∧ s.bytes = []
  closed : s.closed = true → s.ended.isSome = true ∧ s.pc = .idle ∧ s.bytes = []
  unknown : s.added = false → s.pc = .idle ∧ s.ready = false

abbrev InOrder (w xs r : List (Option UInt8)) : Prop := w = xs ++ r

/-- While the client lives, its end has not been read. -/
theorem Represents.alive {a : Notices.State (Option UInt8)} (R : Represents s a)
    (h : s.ended = none) : s.pc ≠ .close ∧ s.closed = false := by
  refine ⟨fun hpc => ?_, Bool.eq_false_iff.2 fun hclosed => ?_⟩
  · have := (R.closing hpc).1
    rw [h] at this
    cases this
  · have := (R.closed hclosed).1
    rw [h] at this
    cases this

theorem simulates : Run.Simulates Step (Notices.Step InOrder true) Event.notice Represents := by
  intro s e t a R hstep
  cases hstep with
  | @send _ data h =>
    obtain ⟨hdata, hended, rfl⟩ := send_cases h
    have hends : s.endWaits = false := by
      rw [State.endWaits, hended]
      rfl
    refine ⟨_, .arrive (mt List.map_eq_nil_iff.1 hdata), ?_, R.listening, R.taking,
      fun h => R.listening.trans h, fun h _ => R.listening.symm.trans h, ?_, ?_,
      fun h => ⟨(R.unknown h).1, h⟩⟩
    · show a.waiting ++ data.map some = (s.bytes ++ data).map some ++ if s.endWaits then [none]
        else []
      rw [R.waiting, State.waiting, hends, List.map_append]
      simp only [Bool.false_eq_true, if_false, List.append_nil]
    · exact fun hpc => absurd hpc (R.alive hended).1
    · exact fun h => absurd ((R.alive hended).2.symm.trans h) Bool.false_ne_true
  | hangUp h =>
    obtain ⟨hended, rfl⟩ := hangUp_cases h
    obtain ⟨hpc, hclosed⟩ := R.alive hended
    refine ⟨_, .arrive (List.cons_ne_nil none []), ?_, R.listening, R.taking,
      fun h => R.listening.trans h, fun h _ => R.listening.symm.trans h, ?_, ?_,
      fun h => ⟨(R.unknown h).1, h⟩⟩
    · show a.waiting ++ [none] = _
      rw [R.waiting, State.waiting, State.waiting, State.endWaits, State.endWaits, hended,
        bne_iff_ne.2 hpc, hclosed]
      simp
    · exact fun h => absurd h hpc
    · exact fun h => absurd (hclosed.symm.trans h) Bool.false_ne_true
  | add h =>
    obtain ⟨hno, rfl⟩ := addfdToEpoll_cases h
    have hpc : s.pc ≠ .close := by
      rw [(R.unknown hno).1]
      exact Pc.noConfusion
    have hlook : s.readable = (true && ! a.waiting.isEmpty) := by
      rw [readable_eq hpc, R.waiting, Bool.true_and]
    exact ⟨_, .listen (R.listening.trans hno), R.waiting, rfl, R.taking, fun h =>
      hlook.symm.trans h,
      fun h _ => hlook.trans h, R.closing, R.closed, fun h => absurd h.symm Bool.false_ne_true⟩
  | wait h =>
    obtain ⟨hready, hidle, rfl⟩ := epollWait_cases h
    have hadded : s.added ≠ false := by
      intro hno
      rw [(R.unknown hno).2] at hready
      cases hready
    have hpc : s.pc ≠ .close := by
      rw [hidle]
      exact Pc.noConfusion
    have hempty := readable_eq hpc
    have htaking : a.taking = false := by
      rw [R.taking, hidle]
      rfl
    cases hr : s.readable with
    | true =>
      have hopen : s.closed ≠ true := by
        intro h
        rw [State.readable, h, (R.closed h).2.2, Bool.not_true, Bool.and_false] at hr
        cases hr
      refine ⟨_, .start (R.pending hready) htaking, ?_, R.listening, rfl,
        fun h => absurd h Bool.false_ne_true, fun h => absurd h Bool.false_ne_true,
        fun h => Pc.noConfusion h, fun h => absurd h hopen, fun h => absurd h hadded⟩
      show a.waiting = _
      rw [R.waiting, State.waiting, State.waiting, State.endWaits, State.endWaits, hidle]
      rfl
    | false =>
      have hnone : a.waiting = [] := by
        rw [hr, eq_comm, Bool.not_eq_false'] at hempty
        rw [R.waiting, List.isEmpty_iff.1 hempty]
      refine ⟨?_, R.listening, ?_, fun h => absurd h Bool.false_ne_true, fun _ h => absurd hnone h,
        fun h => Pc.noConfusion h, fun h => ⟨(R.closed h).1, rfl, (R.closed h).2.2⟩,
        fun h => absurd h hadded⟩
      · rw [R.waiting, State.waiting, State.waiting, State.endWaits, State.endWaits, hidle]
        rfl
      · rw [htaking]
        rfl
  | @recv _ n data h =>
    obtain ⟨hpc, hdata, -, rest, hbytes, rfl⟩ := recvBytes_cases h
    have htaking : a.taking = true := by
      rw [R.taking, hpc]
      rfl
    refine ⟨_, .take htaking ?_, rfl, R.listening, R.taking, R.pending, ?_, ?_, ?_, R.unknown⟩
    · show a.waiting = data.map some ++ State.waiting { s with bytes := rest }
      rw [R.waiting, State.waiting, State.waiting, hbytes, List.map_append, List.append_assoc]
      rfl
    · refine fun hp _ => R.ready hp ?_
      rw [R.waiting, State.waiting, hbytes]
      simp [hdata]
    · exact fun h => Pc.noConfusion (hpc.symm.trans h)
    · exact fun h => Pc.noConfusion (hpc.symm.trans (R.closed h).2.1)
  | recvNone h =>
    obtain ⟨hpc, hbytes, rfl⟩ := recvNone_cases h
    have htaking : a.taking = true := by
      rw [R.taking, hpc]
      rfl
    have hopen : s.closed = false := Bool.eq_false_iff.2 fun h =>
      Pc.noConfusion (hpc.symm.trans (R.closed h).2.1)
    have hadded : s.added ≠ false := fun h => Pc.noConfusion (hpc.symm.trans (R.unknown h).1)
    cases hended : s.ended with
    | none =>
      have hnone : a.waiting = [] := by
        rw [R.waiting, waiting_eq_nil_iff, State.endWaits, hended]
        exact ⟨hbytes, rfl⟩
      refine ⟨_, .finish htaking hnone, ?_, R.listening, rfl, R.pending, fun _ h => absurd hnone h,
        fun h => Pc.noConfusion h, fun h => absurd (hopen.symm.trans h) Bool.false_ne_true,
        fun h => absurd h hadded⟩
      rw [hnone, eq_comm, waiting_eq_nil_iff]
      exact ⟨hbytes, rfl⟩
    | some how =>
      have hlast : a.waiting = [none] := by
        rw [R.waiting, State.waiting, State.endWaits, hbytes, hended, hpc, hopen]
        rfl
      refine ⟨_, .take htaking (r := []) hlast, ?_, R.listening, htaking, R.pending, ?_,
        fun _ => ⟨rfl, hbytes⟩, fun h => absurd (hopen.symm.trans h) Bool.false_ne_true,
        fun h => absurd h hadded⟩
      · rw [eq_comm, waiting_eq_nil_iff]
        exact ⟨hbytes, rfl⟩
      · exact fun _ h => absurd rfl h
  | close h =>
    obtain ⟨hpc, rfl⟩ := close_cases h
    obtain ⟨hended, hbytes⟩ := R.closing hpc
    have htaking : a.taking = true := by
      rw [R.taking, hpc]
      rfl
    have hnone : a.waiting = [] := by
      rw [R.waiting, waiting_eq_nil_iff, State.endWaits, hpc]
      exact ⟨hbytes, Bool.and_eq_false_iff.2 (.inl (Bool.and_false _))⟩
    refine ⟨_, .finish htaking hnone, ?_, R.listening, rfl, fun h => absurd h Bool.false_ne_true,
      fun _ h => absurd hnone h, fun h => Pc.noConfusion h, fun _ => ⟨hended, rfl, hbytes⟩, ?_⟩
    · rw [hnone, eq_comm, waiting_eq_nil_iff]
      exact ⟨hbytes, Bool.and_false _⟩
    · exact fun h => ⟨rfl, rfl⟩

theorem represents_init : Represents .init .init where
  waiting := rfl
  listening := rfl
  taking := rfl
  pending := fun h => absurd h Bool.false_ne_true
  ready := fun h => absurd h Bool.false_ne_true
  closing := fun h => Pc.noConfusion h
  closed := fun h => absurd h Bool.false_ne_true
  unknown := fun _ => ⟨rfl, rfl⟩

theorem exists_notices (run : Run Step .init es s) :
    ∃ a, Run (Notices.Step InOrder true) .init (es.filterMap Event.notice) a ∧ Represents s a :=
  Run.simulate simulates represents_init run

/-! ### The bytes -/

/-- The accounts of the bytes: what is sent is given by `recv` or has still to be read. -/
structure Holds (es : List Event) (s : State) : Prop where
  sent : sent es = received es ++ s.bytes
  fits : ∀ data, .recv data ∈ es → data ≠ [] ∧ data.length < MAX_BUFFER_SIZE

theorem Holds.kept (h : Holds es s) (hsent : e.sent = []) (hreceived : e.received = [])
    (hbytes : s'.bytes = s.bytes) (hrecv : ∀ data, e ≠ .recv data) : Holds (es ++ [e]) s' := by
  refine ⟨?_, fun data hdata => ?_⟩
  · rw [sent_concat, received_concat, hsent, hreceived, hbytes, List.append_nil, List.append_nil]
    exact h.sent
  · rcases List.mem_append.1 hdata with hdata | hdata
    · exact h.fits data hdata
    · exact absurd (List.mem_singleton.1 hdata).symm (hrecv data)

theorem Holds.step (h : Holds es s) (hstep : Step s e s') : Holds (es ++ [e]) s' := by
  cases hstep with
  | @send _ data hs =>
    obtain ⟨-, -, rfl⟩ := send_cases hs
    refine ⟨?_, fun d hd => ?_⟩
    · rw [sent_concat, received_concat, h.sent]
      exact (List.append_assoc ..).trans (congrArg (· ++ _) (List.append_nil _).symm)
    · rcases List.mem_append.1 hd with hd | hd
      · exact h.fits d hd
      · exact Event.noConfusion (List.mem_singleton.1 hd)
  | hangUp hh =>
    obtain ⟨-, rfl⟩ := hangUp_cases hh
    exact h.kept rfl rfl rfl fun _ => Event.noConfusion
  | add ha =>
    obtain ⟨-, rfl⟩ := addfdToEpoll_cases ha
    exact h.kept rfl rfl rfl fun _ => Event.noConfusion
  | wait hw =>
    obtain ⟨-, -, rfl⟩ := epollWait_cases hw
    exact h.kept rfl rfl rfl fun _ => Event.noConfusion
  | @recv _ n data hr =>
    obtain ⟨-, hdata, hlength, rest, hbytes, rfl⟩ := recvBytes_cases hr
    refine ⟨?_, fun d hd => ?_⟩
    · rw [sent_concat, received_concat, h.sent, hbytes]
      exact (List.append_nil _).trans (List.append_assoc ..).symm
    · rcases List.mem_append.1 hd with hd | hd
      · exact h.fits d hd
      · obtain rfl := Event.recv.inj (List.mem_singleton.1 hd)
        exact ⟨hdata, hlength⟩
  | recvNone hn =>
    obtain ⟨-, -, rfl⟩ := recvNone_cases hn
    exact h.kept rfl rfl rfl fun _ => Event.noConfusion
  | close hc =>
    obtain ⟨-, rfl⟩ := close_cases hc
    exact h.kept rfl rfl rfl fun _ => Event.noConfusion

/-- In every run `recv` gives what the client has sent, in its order and in pieces that leave room
for the NUL. When the descriptor is not on the ready list and `epoll_et_loop` does not run, nothing
is left to read, and the descriptor is closed exactly if the client has ended. -/
theorem et_loop_reads_all (run : Run Step .init es s) :
    sent es = received es ++ s.bytes ∧
      (∀ data, .recv data ∈ es → data ≠ [] ∧ data.length < MAX_BUFFER_SIZE) ∧
      (s.added = true → s.ready = false → s.pc = .idle →
        received es = sent es ∧ (s.closed = true ↔ s.ended.isSome = true)) := by
  obtain ⟨a, arun, R⟩ := exists_notices run
  have hholds := run.invariant ⟨rfl, fun _ h => absurd h List.not_mem_nil⟩
    fun _ _ _ _ h hstep => Holds.step h hstep
  refine ⟨hholds.sent, hholds.fits, fun hadded hready hidle => ?_⟩
  have hnone : a.waiting = [] := by
    refine waiting_eq_nil arun (R.listening.trans hadded) (fun hne => ?_) ?_
    · rw [← Bool.not_eq_true]
      intro hp
      rw [R.ready hp hne] at hready
      cases hready
    · rw [R.taking, hidle]
      rfl
  rw [R.waiting, waiting_eq_nil_iff, State.endWaits, hidle] at hnone
  obtain ⟨hbytes, hend⟩ := hnone
  refine ⟨?_, fun h => (R.closed h).1, fun h => ?_⟩
  · rw [hholds.sent, hbytes, List.append_nil]
  · rw [h] at hend
    exact (Bool.not_eq_false' _).mp hend

/-- The client sends six bytes before it is accepted, and hangs up while they are read. -/
theorem et_loop_reads_all_six : ∃ es s, Run Step .init es s ∧ received es = text "abcdef" ∧
    s.closed = true := by
  have hadded := (Run.nil.snoc (@Step.send .init _ (text "abcdef") rfl)).snoc (.add rfl)
  have hfirst := (hadded.snoc (.wait rfl)).snoc (@Step.recv _ _ 4 _ rfl)
  have hsecond := (hfirst.snoc (@Step.hangUp _ _ .closed rfl)).snoc (@Step.recv _ _ 2 _ rfl)
  have hclosed := ((hsecond.snoc (.recvNone rfl)).snoc (.close rfl))
  obtain ⟨-, -, hrest⟩ := et_loop_reads_all hclosed
  obtain ⟨hreceived, hended⟩ := hrest rfl rfl rfl
  exact ⟨_, _, hclosed, hreceived, hended.2 rfl⟩

end EpollBlock
end CFunction
