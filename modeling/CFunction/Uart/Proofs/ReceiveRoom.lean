import CFunction.Uart.Proofs.Framing

/-!
# The room of the receive loop

The loop runs out of room when nothing can be moved to the front: when the unparsed bytes fill
the buffer. What `parse_buf` leaves is then a `$` and bytes without a `'\r'`, and a stream with so
long a line fills the buffer however it is cut into chunks.
-/

namespace CFunction
namespace ReadGps

open CString ByteMemory

variable {env : Env}

/-! ### Moving the unparsed bytes -/

theorem Keeps.compactForward {st : Receiver} {pending : Bytes} (h : Keeps st pending) :
    Keeps st.compactForward pending := by
  have hwindow := h.window
  have hinside := h.inside
  have hread := h.readPos_nonneg
  rw [Receiver.compactForward]
  split
  · have hcount : (st.writePos - st.readPos).toNat = pending.length := by omega
    rw [hcount, h.bytes]
    refine ⟨Int.le_refl 0, ?_, ?_, slice_store 0 pending⟩
    · simp only
      omega
    · simp only
      omega
  · exact h

/-- There is room unless the unparsed bytes fill the buffer. -/
theorem Keeps.one_le_room {st : Receiver} {pending : Bytes} (h : Keeps st pending) :
    1 ≤ st.room ↔ pending.length < 2047 := by
  have hwindow := h.window
  have hinside := h.inside
  have hread := h.readPos_nonneg
  have hleft : st.left = 2047 - st.writePos := rfl
  have hmin : MIN_SIZE = 64 := rfl
  rw [Receiver.room, Receiver.compactForward]
  split
  · simp only [Receiver.left, BUF_SIZE]
    omega
  · omega

theorem Keeps.room_of_full {st : Receiver} {pending : Bytes} (h : Keeps st pending)
    (hfull : pending.length = 2047) : st.room = 0 := by
  have hwindow := h.compactForward.window
  have hread := h.compactForward.readPos_nonneg
  have hinside := h.compactForward.inside
  have hleft : st.compactForward.left = 2047 - st.compactForward.writePos := rfl
  rw [Receiver.room]
  omega

theorem Keeps.length_le {st : Receiver} {pending : Bytes} (h : Keeps st pending) :
    pending.length ≤ 2047 := by
  have hwindow := h.window
  have hinside := h.inside
  have hread := h.readPos_nonneg
  omega

/-- One round from a receiver that keeps `pending`. -/
theorem Keeps.round {st st' : Receiver} {pending : Bytes} {result : ReadResult}
    (h : Keeps st pending) (hstep : st.StepForward env result st') :
    (pending ++ result.data).length ≤ 2047 ∧ Keeps st' (nextPending pending result) := by
  have hready := h.compactForward
  obtain ⟨hroom, hkeeps, -⟩ := hready.handle hstep
  have hwindow := hready.window
  have hread := hready.readPos_nonneg
  have hleft : st.compactForward.left = 2047 - st.compactForward.writePos := rfl
  refine ⟨?_, hkeeps⟩
  rw [List.length_append]
  omega

/-! ### What a call leaves of a line -/

theorem suffix_of_notMem {α : Type*} {s a b : List α} {c : α} (hc : c ∉ s)
    (h : s <:+ a ++ c :: b) : s <:+ b := by
  rcases List.suffix_or_suffix_of_suffix h (List.suffix_append a (c :: b)) with hs | hs
  · rcases List.suffix_cons_iff.1 hs with rfl | hs
    · exact absurd List.mem_cons_self hc
    · exact hs
  · exact absurd (hs.subset List.mem_cons_self) hc

/-- A line that no `'\r'` closes is left. -/
theorem line_suffix_split {line : Bytes} (hline : IsLine line) {cur rest : Bytes}
    (h : line <:+ cur ++ rest) : line <:+ (split cur rest).2 := by
  have hcr := hline.cr_notMem
  have hlf : ∀ {s : Bytes}, line <:+ lf :: s → line <:+ s := by
    intro s hs
    rcases List.suffix_cons_iff.1 hs with rfl | hs
    · obtain ⟨q, hq, -⟩ := hline
      injection hq with hhead
      exact absurd hhead (by decide)
    · exact hs
  have hne : ¬ line <:+ [] := by
    rintro hnil
    obtain ⟨q, rfl, -⟩ := hline
    exact absurd (List.suffix_nil.1 hnil) (List.cons_ne_nil _ _)
  induction cur, rest using split.induct with
  | case1 cur =>
    rw [split]
    rwa [List.append_nil] at h
  | case2 cur => exact absurd (suffix_of_notMem hcr h) hne
  | case3 cur => exact absurd (hlf (suffix_of_notMem hcr h)) hne
  | case4 cur d rest ih =>
    rw [split_cr_lf]
    exact ih (hlf (suffix_of_notMem hcr h))
  | case5 cur c rest hc ih =>
    rw [split_cr hc]
    exact ih (suffix_of_notMem hcr h)
  | case6 cur b rest hb ih =>
    rw [split_of_ne hb]
    rw [List.append_cons] at h
    exact ih h

theorem line_suffix_parse {line bytes : Bytes} (hline : IsLine line) (h : line <:+ bytes) :
    line <:+ (parse bytes).2 := by
  have hself : fromDollar line = line := by
    obtain ⟨q, rfl, -⟩ := hline
    exact @fromDollar_append [] List.not_mem_nil q
  have hfrom : line <:+ fromDollar bytes := by
    obtain ⟨s, rfl⟩ := h
    have hsuffix := fromDollar_append_suffix s line
    rwa [hself] at hsuffix
  rcases parse_cases bytes with ⟨hno, -⟩ | ⟨junk, rest, hjunk, rfl, hparse⟩
  · rw [fromDollar_of_notMem hno] at hfrom
    obtain ⟨q, rfl, -⟩ := hline
    exact absurd (List.suffix_nil.1 hfrom) (List.cons_ne_nil _ _)
  · rw [fromDollar_append hjunk] at hfrom
    rw [hparse]
    exact line_suffix_split hline hfrom

/-- A call that uses nothing was given a line, and nothing behind it. -/
theorem isLine_of_parse_eq {bytes : Bytes} (hne : bytes ≠ []) (h : (parse bytes).2 = bytes) :
    IsLine bytes := by
  obtain ⟨hleft, hsuffix⟩ := parse_left bytes
  rw [h] at hleft hsuffix
  rcases parse_cases bytes with ⟨hno, hparse⟩ | ⟨junk, rest, hjunk, rfl, -⟩
  · rw [hparse] at h
    exact absurd h.symm hne
  · rw [fromDollar_append hjunk] at hsuffix
    obtain rfl : junk = [] := by
      have hlen := hsuffix.length_le
      rw [List.length_append] at hlen
      exact List.length_eq_zero_iff.1 (by omega)
    rcases hleft with hnil | ⟨c, q, hcons, hcr⟩
    · exact absurd hnil hne
    · injection hcons with _ hq
      exact ⟨rest, rfl, hq ▸ hcr⟩

theorem parse_line {line : Bytes} (hline : IsLine line) : parse line = ([], line) := by
  obtain ⟨q, rfl, hq⟩ := hline
  have hself : fromDollar (dollar :: q) = dollar :: q :=
    @fromDollar_append [] List.not_mem_nil q
  rw [parse, hself]
  exact split_no_cr hq [dollar]

/-! ### Long lines -/

/-- `$` and 2046 more bytes, none of them a `'\r'`. -/
def HasLongLine (stream : Bytes) : Prop :=
  ∃ line, IsLine line ∧ line.length = 2047 ∧ line <:+: stream

/-- What is kept after a run: the end of the stream, with every line in it that is not closed, and
only a line when it fills the buffer. -/
structure Tail (stream pending : Bytes) : Prop where
  suffix : pending <:+ stream
  lines : ∀ line, IsLine line → line <:+ stream → line <:+ pending
  full : pending.length = 2047 → IsLine pending

theorem Tail.nil : Tail [] [] :=
  ⟨List.suffix_rfl, fun _ _ h => h, fun h => absurd h (by decide)⟩

theorem IsLine.left {a b : Bytes} (h : IsLine (a ++ b)) : a = [] ∨ IsLine a := by
  obtain ⟨q, hq, hcr⟩ := h
  cases a with
  | nil => exact .inl rfl
  | cons c a =>
    injection hq with hc hq
    refine .inr ⟨a, by rw [hc], fun h => hcr ?_⟩
    rw [← hq]
    exact List.mem_append_left b h

/-- What of a line has been received is kept. -/
theorem Tail.suffix_left {stream pending a b : Bytes} (h : Tail stream pending)
    (hline : IsLine (a ++ b)) (ha : a <:+ stream) : a <:+ pending := by
  rcases hline.left with rfl | hleft
  · exact List.nil_suffix
  · exact h.lines a hleft ha

theorem Tail.line_suffix {stream pending line : Bytes} (h : Tail stream pending)
    (hline : IsLine line) {chunk : Bytes} (hs : line <:+ stream ++ chunk) :
    line <:+ pending ++ chunk := by
  obtain ⟨x, hx⟩ := hs
  rcases List.append_eq_append_iff.1 hx with ⟨a, hstream, rfl⟩ | ⟨a, -, hchunk⟩
  · obtain ⟨v, hv⟩ := h.suffix_left hline ⟨x, hstream.symm⟩
    exact ⟨v, by rw [← hv, List.append_assoc]⟩
  · exact ⟨pending ++ a, by rw [hchunk, List.append_assoc]⟩

/-- The step lemma: a round keeps the tail of the stream. -/
theorem Tail.parse {stream pending chunk : Bytes} (h : Tail stream pending)
    (hroom : (pending ++ chunk).length ≤ 2047) :
    Tail (stream ++ chunk) (ReadGps.parse (pending ++ chunk)).2 := by
  have hused : (ReadGps.parse (pending ++ chunk)).2 <:+ pending ++ chunk :=
    (parse_left _).2.trans (List.dropWhile_suffix _)
  refine ⟨?_, ?_, ?_⟩
  · obtain ⟨v, hv⟩ := h.suffix
    refine hused.trans ⟨v, ?_⟩
    rw [← List.append_assoc, hv]
  · intro line hline hs
    exact line_suffix_parse hline (h.line_suffix hline hs)
  · intro hfull
    have hall : (ReadGps.parse (pending ++ chunk)).2 = pending ++ chunk :=
      hused.eq_of_length_le (by omega)
    rw [hall]
    refine isLine_of_parse_eq ?_ hall
    intro hnil
    rw [hnil, List.length_nil] at hroom
    rw [hnil] at hfull
    exact absurd hfull (by decide)

/-- A long line that ends in a chunk fills the buffer. -/
theorem Tail.fills {stream pending chunk : Bytes} (h : Tail stream pending)
    (hroom : (pending ++ chunk).length ≤ 2047) (hlong : HasLongLine (stream ++ chunk))
    (hno : ¬ HasLongLine stream) : (ReadGps.parse (pending ++ chunk)).2.length = 2047 := by
  obtain ⟨line, hline, hlen, x, y, hx⟩ := hlong
  suffices hall : pending ++ chunk = line by
    rw [hall, parse_line hline, hlen]
  rw [List.append_assoc] at hx
  rw [List.length_append] at hroom
  rcases List.append_eq_append_iff.1 hx with ⟨a, hstream, hsplit⟩ | ⟨a, -, hchunk⟩
  · rcases List.append_eq_append_iff.1 hsplit with ⟨b, rfl, -⟩ | ⟨b, rfl, hchunk⟩
    · exact absurd ⟨line, hline, hlen, ⟨x, b, by rw [hstream, List.append_assoc]⟩⟩ hno
    · -- the line begins in what was kept, and the buffer has no room for more
      have ha := h.suffix_left hline ⟨x, hstream.symm⟩
      have hle := ha.length_le
      rw [hchunk, List.length_append] at hroom
      rw [List.length_append] at hlen
      have hy : y = [] := List.length_eq_zero_iff.1 (by omega)
      have hpending : a = pending := ha.eq_of_length (by omega)
      rw [hchunk, hy, List.append_nil, hpending]
  · rw [hchunk, List.length_append, List.length_append] at hroom
    have hpending : pending = [] := List.length_eq_zero_iff.1 (by omega)
    have ha : a = [] := List.length_eq_zero_iff.1 (by omega)
    have hy : y = [] := List.length_eq_zero_iff.1 (by omega)
    rw [hpending, hchunk, ha, hy, List.append_nil]
    rfl

/-! ### Runs -/

/-- A round, on what is kept and what has been received. -/
theorem Tail.next {stream pending : Bytes} {result : ReadResult} (h : Tail stream pending)
    (hroom : (pending ++ result.data).length ≤ 2047) :
    Tail (stream ++ result.data) (nextPending pending result) := by
  cases result with
  | etime =>
    rw [ReadResult.data_etime, List.append_nil]
    exact h
  | error restarted =>
    rw [ReadResult.data_error, List.append_nil]
    exact h
  | bytes chunk => exact h.parse hroom

/-- The run lemma. -/
theorem run_tail {mem : ByteMemory} {results : List ReadResult} {st : Receiver}
    (run : Run (Receiver.StepForward env) (Receiver.init mem) results st) :
    ∃ pending, Keeps st pending ∧ Tail (received results) pending := by
  refine run.invariant (P := fun results st =>
    ∃ pending, Keeps st pending ∧ Tail (received results) pending) ?_ ?_
  · exact ⟨[], (Holds.init mem).keeps, Tail.nil⟩
  · rintro results st result st' ⟨pending, hkeeps, htail⟩ hstep
    obtain ⟨hroom, hkeeps'⟩ := hkeeps.round hstep
    rw [received_concat]
    exact ⟨nextPending pending result, hkeeps', htail.next hroom⟩

/-- A long line fills the buffer somewhere on the way. -/
theorem exists_full {mem : ByteMemory} {results : List ReadResult} {st : Receiver}
    (run : Run (Receiver.StepForward env) (Receiver.init mem) results st)
    (hlong : HasLongLine (received results)) :
    ∃ results' st', results' <+: results ∧
      Run (Receiver.StepForward env) (Receiver.init mem) results' st' ∧ ¬ 1 ≤ st'.room := by
  induction run with
  | nil =>
    obtain ⟨line, -, hlen, hline⟩ := hlong
    rw [List.infix_nil.1 hline] at hlen
    exact absurd hlen (by decide)
  | @snoc results st st' result run hstep ih =>
    by_cases hbefore : HasLongLine (received results)
    · obtain ⟨results', st'', hpre, hrun, hroom⟩ := ih hbefore
      exact ⟨results', st'', hpre.trans (List.prefix_append results [result]), hrun, hroom⟩
    · obtain ⟨pending, hkeeps, htail⟩ := run_tail run
      obtain ⟨hfits, hkeeps'⟩ := hkeeps.round hstep
      refine ⟨_, st', List.prefix_rfl, run.snoc hstep, ?_⟩
      rw [received_concat] at hlong
      rw [hkeeps'.one_le_room]
      cases result with
      | etime =>
        rw [ReadResult.data_etime, List.append_nil] at hlong
        exact absurd hlong hbefore
      | error restarted =>
        rw [ReadResult.data_error, List.append_nil] at hlong
        exact absurd hlong hbefore
      | bytes chunk =>
        have hfull := htail.fills hfits hlong hbefore
        exact fun hlt => absurd hfull (Nat.ne_of_lt hlt)

/-- In a run `dread` is always offered room exactly when the bytes received hold no long line. -/
theorem room_run_iff {mem : ByteMemory} {results : List ReadResult} {st : Receiver}
    (run : Run (Receiver.StepForward env) (Receiver.init mem) results st) :
    (∀ results' st', results' <+: results →
      Run (Receiver.StepForward env) (Receiver.init mem) results' st' → 1 ≤ st'.room) ↔
      ¬ HasLongLine (received results) := by
  constructor
  · intro hroom hlong
    obtain ⟨results', st', hpre, hrun, hfull⟩ := exists_full run hlong
    exact hfull (hroom results' st' hpre hrun)
  · rintro hshort results' st' ⟨later, rfl⟩ hrun
    obtain ⟨pending, hkeeps, htail⟩ := run_tail hrun
    rw [hkeeps.one_le_room]
    refine Nat.lt_of_le_of_ne hkeeps.length_le fun hfull => hshort ?_
    refine ⟨pending, htail.full hfull, hfull, ?_⟩
    rw [received, List.flatMap_append]
    exact htail.suffix.isInfix.trans (List.prefix_append _ _).isInfix

/-- A short sentence in two reads, with a time-out between them. -/
def shortReads : List ReadResult := [.bytes [dollar, ascii 'A'], .etime, .bytes [cr]]

theorem exists_shortReads_run (env : Env) :
    ∃ st, Run (Receiver.StepForward env) (Receiver.init fun _ => 0) shortReads st := by
  have hinit := (Holds.init fun _ => 0).keeps
  have hoffer : (Receiver.init fun _ => 0).compactForward.Offers (.bytes [dollar, ascii 'A']) := by
    change ((2 : Nat) : Int) ≤ _
    decide
  obtain ⟨st₁, hread⟩ := hinit.compactForward.exists_handle hoffer trivial
  obtain ⟨-, hkeeps₁⟩ := hinit.round hread
  have hidle : st₁.compactForward.Offers .etime := trivial
  obtain ⟨st₂, hwait⟩ := hkeeps₁.compactForward.exists_handle hidle trivial
  obtain ⟨-, hkeeps₂⟩ := hkeeps₁.round hwait
  have hroom : st₂.compactForward.Offers (.bytes [cr]) := hkeeps₂.one_le_room.2 (by decide)
  obtain ⟨st₃, hend⟩ := hkeeps₂.compactForward.exists_handle hroom (harmless_of_short (by decide))
  exact ⟨st₃, ((Run.nil.snoc hread).snoc hwait).snoc hend⟩

theorem room_run_iff_sentence : ∃ st,
    Run (Receiver.StepForward ⟨default, fun _ => false⟩) (Receiver.init fun _ => 0) shortReads st ∧
    ((∀ results' st', results' <+: shortReads →
      Run (Receiver.StepForward ⟨default, fun _ => false⟩) (Receiver.init fun _ => 0) results' st' →
        1 ≤ st'.room) ↔ ¬ HasLongLine (received shortReads)) := by
  obtain ⟨st, run⟩ := exists_shortReads_run ⟨default, fun _ => false⟩
  exact ⟨st, run, room_run_iff run⟩

/-! ### A stalled receiver -/

/-- A line that fills the buffer stays there, and nothing more is received. -/
theorem Keeps.stalled {st st' : Receiver} {line : Bytes} {result : ReadResult}
    (h : Keeps st line) (hline : IsLine line) (hfull : line.length = 2047)
    (hstep : st.StepForward env result st') : result.data = [] ∧ Keeps st' line := by
  obtain ⟨hroom, hkeeps⟩ := h.round hstep
  rw [List.length_append] at hroom
  have hnone : result.data = [] := List.length_eq_zero_iff.1 (by omega)
  refine ⟨hnone, ?_⟩
  cases result with
  | etime => exact hkeeps
  | error restarted => exact hkeeps
  | bytes chunk =>
    obtain rfl : chunk = [] := hnone
    rw [nextPending, List.append_nil, parse_line hline] at hkeeps
    exact hkeeps

theorem Keeps.stalled_run {st st' : Receiver} {line : Bytes} {results : List ReadResult}
    (h : Keeps st line) (hline : IsLine line) (hfull : line.length = 2047)
    (run : Run (Receiver.StepForward env) st results st') :
    received results = [] ∧ Keeps st' line := by
  refine run.invariant (P := fun results st' => received results = [] ∧ Keeps st' line)
    ⟨rfl, h⟩ ?_
  rintro results st₁ result st₂ ⟨hnone, hkeeps⟩ hstep
  obtain ⟨hdata, hkeeps'⟩ := hkeeps.stalled hline hfull hstep
  rw [received_concat, hnone, hdata]
  exact ⟨rfl, hkeeps'⟩

/-- A line of 2047 bytes that no `'\r'` closes. -/
def longLine : Bytes := dollar :: List.replicate 2046 (ascii 'A')

theorem longLine_isLine : IsLine longLine :=
  ⟨_, rfl, fun h => absurd (List.eq_of_mem_replicate h) (by decide)⟩

theorem longLine_length : longLine.length = 2047 := by
  rw [longLine, List.length_cons, List.length_replicate]

/-- Received in one chunk it leaves no room, for ever: `dread` is offered 0 bytes, and the loop
receives nothing more. -/
theorem longLine_stalls : ∃ st,
    Run (Receiver.StepForward ⟨default, fun _ => false⟩) (Receiver.init fun _ => 0)
      [.bytes longLine] st ∧
      ∀ results st', Run (Receiver.StepForward ⟨default, fun _ => false⟩) st results st' →
        st'.room = 0 ∧ received results = [] := by
  have hinit := (Holds.init fun _ => 0).keeps
  have hoffer : (Receiver.init fun _ => 0).compactForward.Offers (.bytes longLine) := by
    have hleft : (Receiver.init fun _ => 0).compactForward.left = 2047 := by decide
    change (longLine.length : Int) ≤ _
    rw [hleft, longLine_length]
    exact Int.le_refl _
  have hnothing : (nextTexts [] (.bytes longLine)).map stringIn = [] := by
    rw [nextTexts, List.nil_append, parse_line longLine_isLine]
    rfl
  obtain ⟨st, hstep⟩ := hinit.compactForward.exists_handle hoffer (by rw [hnothing]; trivial)
  obtain ⟨-, hkeeps⟩ := hinit.round hstep
  rw [nextPending, List.nil_append, parse_line longLine_isLine] at hkeeps
  refine ⟨st, Run.nil.snoc hstep, fun results st' run => ?_⟩
  obtain ⟨hnone, hkeeps'⟩ := hkeeps.stalled_run longLine_isLine longLine_length run
  exact ⟨hkeeps'.room_of_full longLine_length, hnone⟩

end ReadGps
end CFunction
