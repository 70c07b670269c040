import CFunction.Uart.Proofs.StrayLine

/-!
# The receive loop

The loop keeps the bytes that are not parsed yet between `read_pos` and `write_pos`. As long as
they are few, moving them to the front always makes room, copies no overlapping range, and every
round is `parse` on them and on what `dread` delivers.
-/

namespace CFunction
namespace ReadGps

open CString ByteMemory

/-- The strings handed to `parse_packet`. -/
def Receiver.texts (st : Receiver) : List Bytes := st.handed.map Packet.text

/-- The bytes that a read result delivers. -/
def ReadResult.data : ReadResult → Bytes
  | .bytes chunk => chunk
  | _ => []

@[simp] theorem ReadResult.data_etime : data .etime = [] := rfl

@[simp] theorem ReadResult.data_error (restarted : Bool) : data (.error restarted) = [] := rfl

/-- The stream received in a run. -/
def received (results : List ReadResult) : Bytes := results.flatMap ReadResult.data

theorem received_concat (results : List ReadResult) (result : ReadResult) :
    received (results ++ [result]) = received results ++ result.data := by
  simp [received]

/-- The unparsed bytes lie between `read_pos` and `write_pos`. -/
structure Keeps (st : Receiver) (pending : Bytes) : Prop where
  readPos_nonneg : 0 ≤ st.readPos
  window : st.writePos = st.readPos + pending.length
  inside : st.writePos ≤ 2047
  bytes : st.rxBuf.slice st.readPos pending.length = pending

/-- The unparsed bytes after a round. -/
def nextPending (pending : Bytes) : ReadResult → Bytes
  | .bytes chunk => (parse (pending ++ chunk)).2
  | _ => pending

/-- The strings that a round hands on. -/
def nextTexts (pending : Bytes) : ReadResult → List Bytes
  | .bytes chunk => (parse (pending ++ chunk)).1
  | _ => []

/-- What a result of `dread` may be when the buffer is `ready`: at most the room it was offered,
and a uart that restarts. -/
def Receiver.Offers (ready : Receiver) : ReadResult → Prop
  | .etime => True
  | .error restarted => restarted = true
  | .bytes chunk => (chunk.length : Int) ≤ ready.left

section Keeps

variable {env : Env} {st st' ready : Receiver} {pending chunk : Bytes} {result : ReadResult}

/-- Accepting a chunk is `parse_buf` on the unparsed bytes with the chunk behind them. -/
theorem Keeps.accept_eq (env : Env) (h : Keeps st pending)
    (hroom : (chunk.length : Int) ≤ st.left) :
    ∃ outcome, Outcome env st.readPos (pending ++ chunk).length st.globals []
        (parse (pending ++ chunk)) outcome ∧
      st.accept env chunk = outcome.map fun x =>
        ⟨x.2.1, st.readPos + x.2.2.1, st.writePos + chunk.length, st.numErrors, x.1,
          st.handed ++ x.2.2.2⟩ := by
  have hwin := h.window
  have hread := h.readPos_nonneg
  have hleft : st.left = 2047 - st.writePos := rfl
  let mem := (st.rxBuf.store st.writePos chunk).set (st.writePos + chunk.length) 0
  have hslice : mem.slice st.readPos (pending ++ chunk).length = pending ++ chunk := by
    rw [List.length_append, slice_add]
    congr 1
    · refine Eq.trans (slice_congr ?_) h.bytes
      intro x _ hx
      exact (set_of_ne 0 (by omega)).trans (store_of_out (Or.inl (by omega)))
    · rw [← hwin]
      refine Eq.trans (slice_congr ?_) (@slice_store st.rxBuf st.writePos chunk)
      intro x _ hx
      exact set_of_ne 0 (by omega)
  have hsize : st.writePos + (chunk.length : Int) - st.readPos = (pending ++ chunk).length := by
    rw [List.length_append]
    omega
  have hend : st.readPos + ((pending ++ chunk).length : Int) < BUF_SIZE := by
    rw [← hsize, BUF_SIZE]
    omega
  refine ⟨_, parseBuf_outcome env st.globals hslice hread hend, ?_⟩
  rw [Receiver.accept]
  dsimp only
  rw [hsize]
  cases parseBuf env st.globals mem st.readPos (pending ++ chunk).length <;> rfl

/-- What an accepted chunk leaves. -/
theorem Keeps.accept (h : Keeps st pending) (hroom : (chunk.length : Int) ≤ st.left)
    (hst' : st.accept env chunk = some st') :
    Keeps st' (parse (pending ++ chunk)).2 ∧
      st'.texts = st.texts ++ (parse (pending ++ chunk)).1.map stringIn ∧
      (Harmless env st.globals ((parse (pending ++ chunk)).1.map stringIn) →
        st'.globals = st.globals.afterAll env ((parse (pending ++ chunk)).1.map stringIn)) := by
  have hwin := h.window
  have hread := h.readPos_nonneg
  have hleft : st.left = 2047 - st.writePos := rfl
  obtain ⟨outcome, houtcome, haccept⟩ := h.accept_eq env hroom
  rw [haccept, Option.map_eq_some_iff] at hst'
  obtain ⟨⟨g, mem, istart, packets⟩, hresult, rfl⟩ := hst'
  obtain ⟨packets, rfl, hsplits⟩ := houtcome.splits g mem istart packets hresult
  have hsuffix := (parse_left (pending ++ chunk)).2.length_le
  have hdrop : (fromDollar (pending ++ chunk)).length ≤ (pending ++ chunk).length :=
    (List.dropWhile_suffix _).length_le
  have hstart := hsplits.start
  rw [List.length_append] at hdrop hstart
  refine ⟨⟨?_, ?_, ?_, hsplits.rest⟩, ?_, fun hharmless => ?_⟩
  · simp only
    omega
  · simp only
    omega
  · simp only
    omega
  · simp only [Receiver.texts, List.map_append, hsplits.texts]
  · obtain ⟨mem', istart', out', hreturns⟩ := houtcome.returns hharmless
    exact congrArg Prod.fst (Option.some.inj (hresult.symm.trans hreturns))

/-- What `dread` can do when the buffer is `ready` is handled if the packets are harmless. -/
theorem Keeps.exists_handle (h : Keeps ready pending) (hoffer : ready.Offers result)
    (hharmless : Harmless env ready.globals ((nextTexts pending result).map stringIn)) :
    ∃ st', ready.handle env result = some st' := by
  cases result with
  | etime => exact ⟨ready, rfl⟩
  | error restarted =>
    obtain rfl : restarted = true := hoffer
    simp only [Receiver.handle, if_true]
    split
    · exact ⟨_, rfl⟩
    · exact ⟨_, rfl⟩
  | bytes chunk =>
    replace hoffer : (chunk.length : Int) ≤ ready.left := hoffer
    obtain ⟨outcome, houtcome, haccept⟩ := h.accept_eq env hoffer
    obtain ⟨mem, istart, out, hreturns⟩ := houtcome.returns hharmless
    exact ⟨_, by rw [Receiver.handle, if_pos hoffer, haccept, hreturns]; rfl⟩

/-- Whatever `dread` does, it keeps to the room it was offered, and the round is `parse`. -/
theorem Keeps.handle (h : Keeps ready pending) (hst' : ready.handle env result = some st') :
    (result.data.length : Int) ≤ ready.left ∧ Keeps st' (nextPending pending result) ∧
      st'.texts = ready.texts ++ (nextTexts pending result).map stringIn ∧
      (Harmless env ready.globals ((nextTexts pending result).map stringIn) →
        st'.globals = ready.globals.afterAll env ((nextTexts pending result).map stringIn)) := by
  have hroom : (0 : Int) ≤ ready.left := by
    have hinside := h.inside
    have hleft : ready.left = 2047 - ready.writePos := rfl
    omega
  cases result with
  | etime =>
    obtain rfl := Option.some.inj hst'
    exact ⟨hroom, h, (List.append_nil _).symm, fun _ => rfl⟩
  | error restarted =>
    have hkept : ∃ n, st' = { ready with numErrors := n } := by
      simp only [Receiver.handle] at hst'
      split at hst'
      · split at hst'
        · exact ⟨_, (Option.some.inj hst').symm⟩
        · cases hst'
      · exact ⟨_, (Option.some.inj hst').symm⟩
    obtain ⟨n, rfl⟩ := hkept
    exact ⟨hroom, ⟨h.readPos_nonneg, h.window, h.inside, h.bytes⟩, (List.append_nil _).symm,
      fun _ => rfl⟩
  | bytes chunk =>
    rw [Receiver.handle] at hst'
    split at hst'
    · rename_i hoffer
      exact ⟨hoffer, h.accept hoffer hst'⟩
    · cases hst'

end Keeps

/-- The receiver keeps the unparsed bytes `pending`, and they are few. -/
structure Holds (st : Receiver) (pending : Bytes) : Prop where
  readPos_nonneg : 0 ≤ st.readPos
  window : st.writePos = st.readPos + pending.length
  inside : st.writePos ≤ 2047
  bytes : st.rxBuf.slice st.readPos pending.length = pending
  few : pending.length ≤ 900

theorem Holds.keeps {st : Receiver} {pending : Bytes} (h : Holds st pending) : Keeps st pending :=
  ⟨h.readPos_nonneg, h.window, h.inside, h.bytes⟩

theorem Keeps.holds {st : Receiver} {pending : Bytes} (h : Keeps st pending)
    (hfew : pending.length ≤ 900) : Holds st pending :=
  ⟨h.readPos_nonneg, h.window, h.inside, h.bytes, hfew⟩

theorem Holds.init (mem : ByteMemory) : Holds (Receiver.init mem) [] :=
  ⟨by simp [Receiver.init], by simp [Receiver.init], by simp [Receiver.init], rfl, by simp⟩

/-- Making room keeps the unparsed bytes. -/
theorem Holds.compact {st : Receiver} {pending : Bytes} (h : Holds st pending) :
    ∃ st', st.compact = some st' ∧ Holds st' pending ∧ st'.handed = st.handed ∧
      st'.globals = st.globals ∧ MIN_SIZE ≤ st'.left := by
  have hwin := h.window
  have hfew := h.few
  have hleft : st.left = 2047 - st.writePos := rfl
  have hmin : MIN_SIZE = 64 := rfl
  unfold Receiver.compact
  by_cases hroom : st.left < MIN_SIZE
  · have hcopy : st.rxBuf.memcpy 0 st.readPos (st.writePos - st.readPos) =
        some (st.rxBuf.store 0 pending) := by
      rw [memcpy, if_pos (by omega), show st.writePos - st.readPos = pending.length by omega,
        Int.toNat_natCast, h.bytes]
    rw [if_pos hroom, hcopy]
    refine ⟨_, rfl, ?_, rfl, rfl, ?_⟩
    · refine ⟨Int.le_refl 0, ?_, ?_, slice_store 0 pending, hfew⟩
      · simp only
        omega
      · simp only
        omega
    · simp only [Receiver.left, BUF_SIZE, hmin]
      omega
  · rw [if_neg hroom]
    exact ⟨st, rfl, h, rfl, rfl, by omega⟩

/-- One round from a receiver that holds `pending`: there is room for 64 bytes at least, each
result that `dread` can give is handled if the packets are harmless, and what it does is `parse`. -/
theorem Holds.round {st : Receiver} {pending : Bytes} (env : Env) (h : Holds st pending) :
    ∃ ready, st.compact = some ready ∧ MIN_SIZE ≤ ready.left ∧
      ∀ result, (∀ chunk, result = .bytes chunk → 0 ∉ fromDollar (pending ++ chunk)) →
        (nextPending pending result).length ≤ 900 →
        (ready.Offers result → Harmless env st.globals (nextTexts pending result) →
          ∃ st', st.Step env result st') ∧
        ∀ st', st.Step env result st' →
          Holds st' (nextPending pending result) ∧
          st'.texts = st.texts ++ nextTexts pending result ∧
          (Harmless env st.globals (nextTexts pending result) →
            st'.globals = st.globals.afterAll env (nextTexts pending result)) := by
  obtain ⟨ready, hcompact, hready, hhanded, hglobals, hroom⟩ := h.compact
  have htexts : ready.texts = st.texts := by rw [Receiver.texts, hhanded, Receiver.texts]
  have hstep : ∀ result st', st.Step env result st' ↔ ready.handle env result = some st' := by
    intro result st'
    rw [Receiver.Step, Receiver.round, hcompact]
    rfl
  refine ⟨ready, hcompact, hroom, ?_⟩
  intro result hne hfew
  have hwhole : (nextTexts pending result).map stringIn = nextTexts pending result := by
    cases result with
    | etime => rfl
    | error restarted => rfl
    | bytes chunk => exact map_stringIn_parse (hne chunk rfl)
  simp only [hstep]
  constructor
  · intro hoffer hharmless
    refine hready.keeps.exists_handle hoffer ?_
    rwa [hwhole, hglobals]
  · intro st' hst'
    obtain ⟨-, hkeeps, hhanded, hafter⟩ := hready.keeps.handle hst'
    rw [hwhole, hglobals] at hafter
    rw [htexts, hwhole] at hhanded
    exact ⟨hkeeps.holds hfew, hhanded, hafter⟩

end ReadGps
end CFunction
