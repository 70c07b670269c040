import CFunction.Uart.Proofs.LeavesNoPacket
import CFunction.Uart.Proofs.ReceiveRoom

/-!
# The positions of the receive loop

`read_pos` and `write_pos` stay in `rx_buf` whatever the bytes are: also where `memcpy` is called
with overlapping ranges, and what it leaves there is not specified. `parse_buf` comes back when the
packets that it hands on are harmless.
-/

namespace CFunction
namespace ReadGps

open CString ByteMemory

variable {env : Env} {st st' ready : Receiver} {result : ReadResult} {chunk : Bytes}

/-- Moving the unparsed bytes to the front (`read_gps.c:706-712`), with any bytes in `rx_buf` where
`memcpy` does not say which. -/
def Receiver.Compacts (st ready : Receiver) : Prop :=
  if st.left < MIN_SIZE then
    ∃ mem, (∀ copied, st.rxBuf.memcpy 0 st.readPos (st.writePos - st.readPos) = some copied →
        mem = copied) ∧
      ready = { st with rxBuf := mem, readPos := 0, writePos := st.writePos - st.readPos }
  else ready = st

/-- A round with such a `memcpy`. -/
def Receiver.StepAny (env : Env) (st : Receiver) (result : ReadResult) (st' : Receiver) : Prop :=
  ∃ ready, st.Compacts ready ∧ ready.handle env result = some st'

theorem Receiver.compacts_compactForward (st : Receiver) : st.Compacts st.compactForward := by
  rw [Receiver.Compacts, Receiver.compactForward]
  by_cases hroom : st.left < MIN_SIZE
  · rw [if_pos hroom, if_pos hroom]
    refine ⟨_, fun copied hcopy => ?_, rfl⟩
    rw [memcpy] at hcopy
    split at hcopy
    · exact Option.some.inj hcopy
    · cases hcopy
  · rw [if_neg hroom, if_neg hroom]

theorem Receiver.StepForward.any (h : st.StepForward env result st') :
    st.StepAny env result st' :=
  ⟨st.compactForward, st.compacts_compactForward, h⟩

/-! ### The invariant -/

structure Receiver.InBounds (st : Receiver) : Prop where
  readPos_nonneg : 0 ≤ st.readPos
  readPos_le : st.readPos ≤ st.writePos
  writePos_le : st.writePos ≤ 2047

theorem inBounds_init (mem : ByteMemory) : (Receiver.init mem).InBounds :=
  ⟨Int.le_refl 0, Int.le_refl 0, (by decide : (0 : Int) ≤ 2047)⟩

/-- `rx_buf` behind a read of `chunk`, with the terminator. -/
def Receiver.filled (st : Receiver) (chunk : Bytes) : ByteMemory :=
  (st.rxBuf.store st.writePos chunk).set (st.writePos + chunk.length) 0

/-- The length that `parse_buf` gets behind a read of `chunk`. -/
def Receiver.unparsed (st : Receiver) (chunk : Bytes) : Int :=
  st.writePos + chunk.length - st.readPos

/-- The accesses of a round that reads `chunk`: the terminator, and what `parse_buf` returns. -/
structure Receiver.Accepts (env : Env) (ready : Receiver) (chunk : Bytes) : Prop where
  terminator : 0 ≤ ready.writePos + chunk.length ∧ ready.writePos + chunk.length ≤ 2047
  parsed : ∃ g mem r packets,
    parseBuf env ready.globals (ready.filled chunk) ready.readPos (ready.unparsed chunk) =
        some (g, mem, r, packets) ∧ 0 ≤ r ∧ r ≤ ready.unparsed chunk

/-- The packets in the bytes that `parse_buf` gets behind a read of `chunk` are harmless. -/
def Receiver.GetsHarmless (env : Env) (ready : Receiver) (chunk : Bytes) : Prop :=
  Harmless env ready.globals
    ((parse ((ready.filled chunk).slice ready.readPos (ready.unparsed chunk).toNat)).1.map stringIn)

/-- When `parse_buf` returns, it returns a number between 0 and `len`, whatever the bytes are. -/
theorem parseBuf_result {g g' : Globals} {mem mem' : ByteMemory} {buf len r : Int}
    {packets : List Packet} (hnonneg : 0 ≤ len) (hlen : len ≤ BUF_SIZE)
    (h : parseBuf env g mem buf len = some (g', mem', r, packets)) : 0 ≤ r ∧ r ≤ len := by
  obtain ⟨n, rfl⟩ := Int.eq_ofNat_of_zero_le hnonneg
  rw [parseBuf_eq_with, Option.map_eq_some_iff] at h
  obtain ⟨⟨s, mem₁, r₁, ds⟩, hrun, hsome⟩ := h
  have hleaves := parseBufWith_leaves ((parsePacket_consumes env).mono (Int.ofNat_le.1 hlen)) hrun
  obtain rfl : r₁ = r := congrArg (fun x => x.2.2.1) hsome
  exact hleaves.result

theorem Receiver.InBounds.compacts (h : st.InBounds) (hready : st.Compacts ready) :
    ready.InBounds := by
  have hread := h.readPos_nonneg
  have hle := h.readPos_le
  have hwrite := h.writePos_le
  rw [Receiver.Compacts] at hready
  split at hready
  · obtain ⟨mem, -, rfl⟩ := hready
    refine ⟨Int.le_refl 0, ?_, ?_⟩
    · dsimp only
      omega
    · dsimp only
      omega
  · rw [hready]
    exact h

theorem Receiver.InBounds.terminator (h : ready.InBounds)
    (hchunk : (chunk.length : Int) ≤ ready.left) :
    0 ≤ ready.writePos + chunk.length ∧ ready.writePos + chunk.length ≤ 2047 := by
  have hread := h.readPos_nonneg
  have hle := h.readPos_le
  have hleft : ready.left = 2047 - ready.writePos := rfl
  omega

theorem Receiver.InBounds.unparsed (h : ready.InBounds)
    (hchunk : (chunk.length : Int) ≤ ready.left) :
    0 ≤ ready.unparsed chunk ∧ ready.readPos + ready.unparsed chunk < BUF_SIZE := by
  have hread := h.readPos_nonneg
  have hle := h.readPos_le
  have hend := (h.terminator hchunk).2
  have hsize : (BUF_SIZE : Int) = 2048 := rfl
  rw [Receiver.unparsed]
  omega

/-- The value that `parse_buf` returns behind a read. -/
theorem Receiver.InBounds.parsed (h : ready.InBounds)
    (hchunk : (chunk.length : Int) ≤ ready.left) {g : Globals} {mem : ByteMemory} {r : Int}
    {packets : List Packet}
    (hparse : parseBuf env ready.globals (ready.filled chunk) ready.readPos
      (ready.unparsed chunk) = some (g, mem, r, packets)) :
    0 ≤ r ∧ r ≤ ready.unparsed chunk := by
  have hread := h.readPos_nonneg
  obtain ⟨hnonneg, hend⟩ := h.unparsed hchunk
  exact parseBuf_result hnonneg (by omega) hparse

/-- It returns from packets that are harmless. -/
theorem Receiver.InBounds.accepts (h : ready.InBounds)
    (hchunk : (chunk.length : Int) ≤ ready.left) (hharmless : ready.GetsHarmless env chunk) :
    ready.Accepts env chunk := by
  refine ⟨h.terminator hchunk, ?_⟩
  obtain ⟨hnonneg, hend⟩ := h.unparsed hchunk
  rw [Receiver.GetsHarmless] at hharmless
  obtain ⟨n, hn⟩ := Int.eq_ofNat_of_zero_le hnonneg
  have hparse := @Receiver.InBounds.parsed env ready chunk h hchunk
  rw [hn] at hend hharmless hparse ⊢
  have hsize := @slice_length (ready.filled chunk) ready.readPos n
  have houtcome := parseBuf_outcome env ready.globals (congrArg _ hsize) h.readPos_nonneg
    (by rw [hsize]; exact hend)
  rw [hsize] at houtcome
  obtain ⟨mem, r, packets, hreturns⟩ := houtcome.returns hharmless
  exact ⟨_, mem, r, packets, hreturns, hparse hreturns⟩

/-- What follows `dread` keeps the positions in bounds. -/
theorem Receiver.InBounds.handle (h : ready.InBounds)
    (hst' : ready.handle env result = some st') : st'.InBounds := by
  cases result with
  | etime =>
    rw [← Option.some.inj hst']
    exact h
  | error restarted =>
    rw [Receiver.handle] at hst'
    split at hst'
    · split at hst'
      · rw [← Option.some.inj hst']
        exact ⟨h.readPos_nonneg, h.readPos_le, h.writePos_le⟩
      · cases hst'
    · rw [← Option.some.inj hst']
      exact ⟨h.readPos_nonneg, h.readPos_le, h.writePos_le⟩
  | bytes chunk =>
    rw [Receiver.handle] at hst'
    split at hst'
    · rename_i hchunk
      rw [Receiver.accept, Option.bind_eq_bind, Option.bind_eq_some_iff] at hst'
      obtain ⟨⟨g, mem, r, packets⟩, hparse, hst'⟩ := hst'
      obtain ⟨hr, hrle⟩ := h.parsed hchunk hparse
      have hterminator := h.terminator hchunk
      have hread := h.readPos_nonneg
      rw [Receiver.unparsed] at hrle
      rw [← Option.some.inj hst']
      refine ⟨?_, ?_, hterminator.2⟩
      · dsimp only
        omega
      · dsimp only
        omega
    · cases hst'

/-- What holds of a state, and of the next round from it. -/
structure StaysInBuffer (env : Env) (st : Receiver) : Prop where
  positions : 0 ≤ st.readPos ∧ st.readPos ≤ st.writePos ∧ st.writePos ≤ 2047
  /-- Once the unparsed bytes are moved: the same, the bytes that `dread` may write, and whatever
  it reads. -/
  round : ∀ ready, st.Compacts ready →
    (0 ≤ ready.readPos ∧ ready.readPos ≤ ready.writePos ∧ ready.writePos ≤ 2047) ∧
    (0 ≤ ready.left ∧ ready.writePos + ready.left ≤ BUF_SIZE) ∧
    ∀ chunk : Bytes, (chunk.length : Int) ≤ ready.left →
      (0 ≤ ready.writePos + chunk.length ∧ ready.writePos + chunk.length ≤ 2047) ∧
      (∀ g mem r packets, parseBuf env ready.globals (ready.filled chunk) ready.readPos
          (ready.unparsed chunk) = some (g, mem, r, packets) →
        0 ≤ r ∧ r ≤ ready.unparsed chunk) ∧
      (ready.GetsHarmless env chunk → ready.Accepts env chunk)

/-- For every stream and every sequence of read results the loop stays inside `rx_buf`, and each
read with harmless packets is accepted. -/
theorem receive_run_staysInBuffer {mem : ByteMemory} {results : List ReadResult}
    (run : Run (Receiver.StepAny env) (Receiver.init mem) results st) : StaysInBuffer env st := by
  have hbounds : st.InBounds := by
    apply run.invariant (P := fun _ st => st.InBounds) (inBounds_init mem)
    intro _ st result st' h hstep
    obtain ⟨ready, hready, hhandle⟩ := hstep
    exact (h.compacts hready).handle hhandle
  refine ⟨⟨hbounds.readPos_nonneg, hbounds.readPos_le, hbounds.writePos_le⟩, fun ready hready => ?_⟩
  have h := hbounds.compacts hready
  have hleft : ready.left = 2047 - ready.writePos := rfl
  have hwrite := h.writePos_le
  have hsize : (BUF_SIZE : Int) = 2048 := rfl
  refine ⟨⟨h.readPos_nonneg, h.readPos_le, h.writePos_le⟩, by omega, fun chunk hchunk => ?_⟩
  exact ⟨h.terminator hchunk, fun _ _ _ _ => h.parsed hchunk, h.accepts hchunk⟩

/-- A short sentence in two reads. -/
theorem receive_run_staysInBuffer_short : ∃ st,
    Run (Receiver.StepAny ⟨default, fun _ => false⟩) (Receiver.init fun _ => 0) shortReads st ∧
      StaysInBuffer ⟨default, fun _ => false⟩ st := by
  obtain ⟨st, run⟩ := exists_shortReads_run ⟨default, fun _ => false⟩
  have hany := run.mono fun _ _ _ => Receiver.StepForward.any
  exact ⟨st, hany, receive_run_staysInBuffer hany⟩

/-- `"$GNRMC,A,*14\r"`. -/
def crashLine : Bytes := text "$GNRMC,A,*14" ++ [cr]

/-- From a read of `crashLine` at the beginning `parse_buf` does not return. -/
theorem crashLine_not_accepted :
    ¬ ∀ results st ready, Run (Receiver.StepAny ⟨default, fun _ => false⟩)
        (Receiver.init fun _ => 0) results st → st.Compacts ready →
      ∀ chunk : Bytes, (chunk.length : Int) ≤ ready.left →
        ready.Accepts ⟨default, fun _ => false⟩ chunk := by
  intro h
  have hinit : Receiver.init (fun _ => 0) = (Receiver.init fun _ => 0).compactForward := rfl
  have hoffer : (crashLine.length : Int) ≤ (Receiver.init fun _ => 0).left := by decide
  obtain ⟨g, mem, r, packets, hparse, -⟩ := (h [] _ _ .nil
    (hinit ▸ Receiver.compacts_compactForward _) crashLine hoffer).parsed
  have hnone : parseBuf ⟨default, fun _ => false⟩ Globals.init
      ((Receiver.init fun _ => 0).filled crashLine) 0 13 = none := rfl
  exact Option.some_ne_none _ (hparse.symm.trans hnone)

end ReadGps
end CFunction
