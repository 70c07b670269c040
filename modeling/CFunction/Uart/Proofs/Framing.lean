import CFunction.Uart.Proofs.ReceiveLoop

/-!
# Framing of the received stream

Along a run the strings handed to `parse_packet` are compared with the framer's sentences of the
stream. They agree as long as no single read brings both ends of a stray line, and from the first
such read on they differ for good, since a stray line does not begin with `$`.
-/

namespace CFunction
namespace ReadGps

open CString ByteMemory

/-- The part of a stream from its first `$` on holds no NUL, and a `'\r'` at least every 900
bytes. -/
structure Tame (s : Bytes) : Prop where
  no_nul : 0 ∉ fromDollar s
  short : ∀ x, x <:+: fromDollar s → cr ∉ x → x.length < 900

theorem fromDollar_append_prefix (s x : Bytes) : fromDollar s <+: fromDollar (s ++ x) := by
  unfold fromDollar
  rw [List.dropWhile_append]
  split
  · rename_i h
    rw [List.isEmpty_iff.1 h]
    exact List.nil_prefix
  · exact List.prefix_append _ x

theorem fromDollar_append_suffix (s x : Bytes) : fromDollar x <:+ fromDollar (s ++ x) := by
  unfold fromDollar
  rw [List.dropWhile_append]
  split
  · exact List.suffix_rfl
  · exact (List.dropWhile_suffix _).trans (List.suffix_append _ x)

theorem Tame.of_append {s x : Bytes} (h : Tame (s ++ x)) : Tame s := by
  have hstarts := fromDollar_append_prefix s x
  refine ⟨fun hmem => h.no_nul (hstarts.subset hmem), ?_⟩
  intro y hy hcr
  exact h.short y (hy.trans hstarts.isInfix) hcr

/-- No read brings both the `'\r'` that closes a sentence and the end of a stray line behind it. -/
def Separated (results : List ReadResult) : Prop :=
  ∀ pre chunk post, results = pre ++ .bytes chunk :: post →
    ¬ ∃ i r, StrayAt (received pre ++ chunk) i r ∧ (received pre).length ≤ i

theorem separated_iff {results : List ReadResult} :
    Separated results ↔ Throughout (fun pre result => ∀ chunk, result = .bytes chunk →
      ¬ ∃ i r, StrayAt (received pre ++ chunk) i r ∧ (received pre).length ≤ i) results := by
  constructor
  · rintro h pre _ post hresults chunk rfl
    exact h pre chunk post hresults
  · intro h pre chunk post hresults
    exact h pre _ post hresults chunk rfl

theorem separated_nil : Separated [] := separated_iff.2 throughout_nil

theorem StrayAt.append {s : Bytes} {i r : Nat} (h : StrayAt s i r) (x : Bytes) :
    StrayAt (s ++ x) i r := by
  obtain ⟨p, gap, c, w, v, rfl, hopen, hgap, hc, hw, hi, hr⟩ := h
  exact ⟨p, gap, c, w, v ++ x, by simp, hopen, hgap, hc, hw, hi, hr⟩

theorem separated_of_not_hasStray {results : List ReadResult} (h : ¬ HasStray (received results)) :
    Separated results := by
  rintro pre chunk post rfl ⟨i, r, hstray, -⟩
  have hwhole : received (pre ++ .bytes chunk :: post) =
      received pre ++ chunk ++ received post := by
    simp [received, ReadResult.data]
  rw [hwhole] at h
  exact h ⟨i, r, hstray.append (received post)⟩

/-- What the last read adds to `Separated`. -/
theorem separated_concat (results : List ReadResult) (result : ReadResult) :
    Separated (results ++ [result]) ↔ Separated results ∧
      ∀ chunk, result = .bytes chunk →
        ¬ ∃ i r, StrayAt (received results ++ chunk) i r ∧ (received results).length ≤ i := by
  rw [separated_iff, separated_iff, throughout_concat_iff]

/-- The stream so far is cut at `consumed`: what is in front of it is framed as the strings
`texts`, and no sentence is finished in the unparsed bytes. -/
structure Framed (stream consumed pending : Bytes) (texts : List Bytes) : Prop where
  parts : stream = consumed ++ pending
  framed : frame consumed = ([], texts)
  unfinished : (frame pending).2 = []

theorem Framed.frame_append {stream consumed pending : Bytes} {texts : List Bytes}
    (h : Framed stream consumed pending texts) (s : Bytes) :
    frame (consumed ++ s) = ((frame s).1, texts ++ (frame s).2) := by
  have hframed : Framer.feed dollar cr [] consumed = ([], texts) := h.framed
  apply Prod.ext
  · rw [Framer.feed_append_fst, hframed]
  · rw [Framer.feed_append_snd, hframed]

theorem Framed.texts_eq {stream consumed pending : Bytes} {texts : List Bytes}
    (h : Framed stream consumed pending texts) : texts = (frame stream).2 := by
  rw [h.parts, h.frame_append, h.unfinished, List.append_nil]

theorem Framed.inSentence_iff {stream consumed pending : Bytes} {texts : List Bytes}
    (h : Framed stream consumed pending texts) (p : Bytes) :
    InSentence (consumed ++ p) ↔ InSentence p := by
  have hframed : Framer.feed dollar cr [] consumed = ([], texts) := h.framed
  rw [InSentence, InSentence, ← Framer.feed_ne_nil_iff dollar_ne_cr,
    ← Framer.feed_ne_nil_iff dollar_ne_cr, Framer.feed_append_fst, hframed]

/-- The stray lines of a call are those of the stream whose ends both come with its chunk. -/
theorem Framed.hasStray_iff {stream consumed pending chunk : Bytes} {texts : List Bytes}
    (h : Framed stream consumed pending texts) :
    HasStray (pending ++ chunk) ↔
      ∃ i r, StrayAt (stream ++ chunk) i r ∧ stream.length ≤ i := by
  constructor
  · rintro ⟨i, r, p, gap, c, w, v, hs, hopen, hgap, hc, hw, -, -⟩
    refine ⟨(consumed ++ p).length, _, ⟨consumed ++ p, gap, c, w, v, ?_,
      (h.inSentence_iff p).2 hopen, hgap, hc, hw, rfl, rfl⟩, ?_⟩
    · rw [h.parts, List.append_assoc, hs, List.append_assoc]
    · rw [h.parts, List.length_append, List.length_append]
      by_contra hlt
      -- otherwise the unparsed bytes would hold a finished sentence
      have hstarts : p ++ [cr] <+: pending := by
        refine List.prefix_of_prefix_length_le ?_ (List.prefix_append pending chunk) ?_
        · exact ⟨gap ++ c :: (w ++ cr :: v), by rw [hs]; simp⟩
        · rw [List.length_append, List.length_singleton]
          omega
      obtain ⟨rest, hrest⟩ := hstarts
      have hfinished := h.unfinished
      rw [← hrest, List.append_assoc, frame, Framer.feed_append_snd, List.singleton_append,
        Framer.feed_stop ((Framer.feed_ne_nil_iff dollar_ne_cr p).2 hopen)] at hfinished
      simp at hfinished
  · rintro ⟨i, r, ⟨p, gap, c, w, v, hs, hopen, hgap, hc, hw, rfl, -⟩, hlen⟩
    rw [h.parts, List.length_append] at hlen
    rw [h.parts, List.append_assoc] at hs
    obtain ⟨q, rfl⟩ : consumed <+: p :=
      List.prefix_of_prefix_length_le ⟨_, hs⟩ (List.prefix_append p _) (by omega)
    rw [List.append_assoc] at hs
    exact ⟨_, _, q, gap, c, w, v, List.append_cancel_left hs, (h.inSentence_iff q).1 hopen, hgap,
      hc, hw, rfl, rfl⟩

/-- After a run: what the receiver holds, whether the strings handed on are the sentences of the
stream, and what they have made of the globals if they are harmless. -/
structure RunState (env : Env) (results : List ReadResult) (st : Receiver)
    (consumed pending : Bytes) : Prop where
  holds : Holds st pending
  parts : received results = consumed ++ pending
  texts : (Separated results ∧ Framed (received results) consumed pending st.texts) ∨
    (¬ Separated results ∧ ∃ x ∈ st.texts, x.head? ≠ some dollar)
  globals : Harmless env Globals.init st.texts →
    st.globals = Globals.init.afterAll env st.texts

/-- The bytes that a read adds keep within the bounds of a round. -/
theorem next_small {s pending : Bytes} {result : ReadResult} {consumed : Bytes}
    (htame : Tame (s ++ result.data)) (hparts : s = consumed ++ pending)
    (hfew : pending.length ≤ 900) :
    (∀ chunk, result = .bytes chunk → 0 ∉ fromDollar (pending ++ chunk)) ∧
      (nextPending pending result).length ≤ 900 := by
  cases result with
  | etime => exact ⟨fun _ h => (by cases h), hfew⟩
  | error restarted => exact ⟨fun _ h => (by cases h), hfew⟩
  | bytes chunk =>
    have hsuffix : fromDollar (pending ++ chunk) <:+ fromDollar (s ++ chunk) := by
      rw [hparts, List.append_assoc]
      exact fromDollar_append_suffix consumed (pending ++ chunk)
    refine ⟨?_, ?_⟩
    · rintro _ ⟨rfl⟩ hmem
      exact htame.no_nul (hsuffix.subset hmem)
    · obtain ⟨hleft, hparse⟩ := parse_left (pending ++ chunk)
      rw [nextPending]
      rcases hleft with hnil | ⟨c, q, hcons, hq⟩
      · rw [hnil]
        exact Nat.zero_le 900
      · rw [hcons, List.length_cons]
        rw [hcons] at hparse
        have hq' : q <:+ fromDollar (s ++ chunk) :=
          (List.suffix_cons c q).trans (hparse.trans hsuffix)
        exact htame.short q hq'.isInfix hq

/-- A call frames the stream further, or hands on a stray line. -/
theorem Framed.parse {stream consumed pending chunk : Bytes} {texts : List Bytes}
    (h : Framed stream consumed pending texts) (hno : ¬ HasStray (pending ++ chunk)) :
    ∃ used, Framed (stream ++ chunk) (consumed ++ used) (parse (pending ++ chunk)).2
      (texts ++ (parse (pending ++ chunk)).1) := by
  obtain ⟨used, hframes⟩ := parse_frames hno
  refine ⟨used, ?_, ?_, hframes.left⟩
  · rw [h.parts, List.append_assoc, List.append_assoc, ← hframes.parts]
  · rw [h.frame_append, hframes.packets]

section RunState

variable {env : Env} {results : List ReadResult} {result : ReadResult} {st st' : Receiver}
  {consumed pending chunk : Bytes}

/-- The globals behind the strings of one more round. -/
theorem RunState.globals_next {texts : List Bytes} (h : RunState env results st consumed pending)
    (htexts : st'.texts = st.texts ++ texts)
    (hafter : Harmless env st.globals texts → st'.globals = st.globals.afterAll env texts)
    (hall : Harmless env Globals.init st'.texts) :
    st'.globals = Globals.init.afterAll env st'.texts := by
  rw [htexts, harmless_append] at hall
  have hglobals := h.globals hall.1
  rw [htexts, Globals.afterAll_append, ← hglobals]
  rw [← hglobals] at hall
  exact hafter hall.2

/-- A read that fails. -/
theorem RunState.idle (h : RunState env results st consumed pending)
    (hidle : ∀ chunk, result ≠ .bytes chunk) (hdata : result.data = [])
    (hholds : Holds st' pending) (htexts : st'.texts = st.texts ++ [])
    (hafter : Harmless env st.globals [] → st'.globals = st.globals.afterAll env []) :
    RunState env (results ++ [result]) st' consumed pending := by
  have hseparated : Separated (results ++ [result]) ↔ Separated results := by
    rw [separated_concat]
    exact and_iff_left fun chunk hchunk => absurd hchunk (hidle chunk)
  have hreceived : received (results ++ [result]) = received results := by
    rw [received_concat, hdata, List.append_nil]
  refine ⟨hholds, ?_, ?_, h.globals_next htexts hafter⟩
  · rw [hreceived]
    exact h.parts
  · rw [hseparated, hreceived, htexts, List.append_nil]
    exact h.texts

/-- A read that delivers `chunk`. -/
theorem RunState.bytes (h : RunState env results st consumed pending)
    (hholds : Holds st' (ReadGps.parse (pending ++ chunk)).2)
    (htexts : st'.texts = st.texts ++ (ReadGps.parse (pending ++ chunk)).1)
    (hafter : Harmless env st.globals (ReadGps.parse (pending ++ chunk)).1 →
      st'.globals = st.globals.afterAll env (ReadGps.parse (pending ++ chunk)).1) :
    ∃ consumed', RunState env (results ++ [.bytes chunk]) st' consumed'
      (ReadGps.parse (pending ++ chunk)).2 := by
  have hreceived : received (results ++ [.bytes chunk]) = received results ++ chunk :=
    received_concat results (.bytes chunk)
  have hseparated : Separated (results ++ [.bytes chunk]) ↔ Separated results ∧
      ¬ ∃ i r, StrayAt (received results ++ chunk) i r ∧ (received results).length ≤ i := by
    rw [separated_concat]
    simp
  have hglobals := h.globals_next htexts hafter
  rcases h.texts with ⟨hsep, hframed⟩ | ⟨hnot, x, hx, hhead⟩
  · rw [← hframed.hasStray_iff] at hseparated
    by_cases hstray : HasStray (pending ++ chunk)
    · obtain ⟨used, hused⟩ := (parse_left (pending ++ chunk)).2.trans (List.dropWhile_suffix _)
      obtain ⟨x, hx, hhead⟩ := parse_stray hstray
      refine ⟨consumed ++ used, hholds, ?_,
        Or.inr ⟨fun hs => (hseparated.1 hs).2 hstray, x, ?_, hhead⟩, hglobals⟩
      · rw [hreceived, h.parts, List.append_assoc, List.append_assoc, hused]
      · rw [htexts]
        exact List.mem_append_right st.texts hx
    · obtain ⟨used, hnext⟩ := hframed.parse hstray
      refine ⟨consumed ++ used, hholds, ?_, Or.inl ⟨hseparated.2 ⟨hsep, hstray⟩, ?_⟩, hglobals⟩
      · rw [hreceived]
        exact hnext.parts
      · rw [hreceived, htexts]
        exact hnext
  · obtain ⟨used, hused⟩ := (parse_left (pending ++ chunk)).2.trans (List.dropWhile_suffix _)
    refine ⟨consumed ++ used, hholds, ?_,
      Or.inr ⟨fun hs => hnot (hseparated.1 hs).1, x, ?_, hhead⟩, hglobals⟩
    · rw [hreceived, h.parts, List.append_assoc, List.append_assoc, hused]
    · rw [htexts]
      exact List.mem_append_left _ hx

/-- What one round preserves. -/
theorem RunState.step (h : RunState env results st consumed pending)
    (htame : Tame (received (results ++ [result]))) (hstep : st.Step env result st') :
    ∃ consumed', RunState env (results ++ [result]) st' consumed' (nextPending pending result) := by
  rw [received_concat] at htame
  obtain ⟨hne, hfew⟩ := next_small htame h.parts h.holds.few
  obtain ⟨ready, -, -, hround⟩ := h.holds.round env
  obtain ⟨hholds, htexts, hafter⟩ := (hround result hne hfew).2 st' hstep
  cases result with
  | etime =>
    exact ⟨consumed, h.idle (fun _ hc => by cases hc) rfl hholds htexts hafter⟩
  | error restarted =>
    exact ⟨consumed, h.idle (fun _ hc => by cases hc) rfl hholds htexts hafter⟩
  | bytes chunk => exact h.bytes hholds htexts hafter

/-- The sentences of the stream after one more round that brings no stray line. -/
theorem RunState.frame_next (h : RunState env results st consumed pending)
    (hsep : Separated (results ++ [result])) :
    (frame (received (results ++ [result]))).2 = st.texts ++ nextTexts pending result := by
  obtain ⟨hbefore, hnext⟩ := (separated_concat results result).1 hsep
  rcases h.texts with ⟨-, hframed⟩ | ⟨hnot, -⟩
  · rw [received_concat]
    cases result with
    | etime =>
      rw [ReadResult.data_etime, List.append_nil, ← hframed.texts_eq]
      exact (List.append_nil st.texts).symm
    | error restarted =>
      rw [ReadResult.data_error, List.append_nil, ← hframed.texts_eq]
      exact (List.append_nil st.texts).symm
    | bytes chunk =>
      obtain ⟨used, hused⟩ := hframed.parse (hframed.hasStray_iff.not.2 (hnext chunk rfl))
      exact hused.texts_eq.symm
  · exact absurd hbefore hnot

end RunState

theorem run_state {env : Env} {mem : ByteMemory} {results : List ReadResult} {st : Receiver}
    (run : Run (Receiver.Step env) (Receiver.init mem) results st) :
    Tame (received results) → ∃ consumed pending, RunState env results st consumed pending := by
  refine run.invariant (P := fun results st => Tame (received results) →
    ∃ consumed pending, RunState env results st consumed pending) ?_ ?_
  · intro _
    exact ⟨[], [], Holds.init mem, rfl, Or.inl ⟨separated_nil, rfl, rfl, rfl⟩, fun _ => rfl⟩
  · intro results st result st' ih hstep htame
    have hprev : Tame (received results) := by
      rw [received_concat] at htame
      exact htame.of_append
    obtain ⟨consumed, pending, hstate⟩ := ih hprev
    obtain ⟨consumed', hnext⟩ := hstate.step htame hstep
    exact ⟨consumed', _, hnext⟩

/-- A run receives a stream. -/
structure Receives (stream : Bytes) (results : List ReadResult) (st : Receiver) : Prop where
  run : ∃ env mem, Run (Receiver.Step env) (Receiver.init mem) results st
  all : received results = stream

/-- The strings handed on are the sentences of the stream if and only if no read brings both ends
of a stray line. -/
theorem texts_eq_iff {stream : Bytes} {results : List ReadResult} {st : Receiver}
    (htame : Tame stream) (h : Receives stream results st) :
    st.texts = (frame stream).2 ↔ Separated results := by
  obtain ⟨⟨env, mem, run⟩, rfl⟩ := h
  obtain ⟨consumed, pending, hstate⟩ := run_state run htame
  rcases hstate.texts with ⟨hsep, hframed⟩ | ⟨hnot, x, hx, hhead⟩
  · exact ⟨fun _ => hsep, fun _ => hframed.texts_eq⟩
  · refine ⟨fun heq => ?_, fun hsep => absurd hsep hnot⟩
    rw [heq] at hx
    exact absurd (Framer.head_of_mem_feed (Or.inl rfl) hx) hhead

/-- From every state that a run reaches the loop finds room, and goes on with whatever `dread` gives
it then, as long as the sentences are harmless and no read brings a stray line. -/
theorem run_goes_on {env : Env} {mem : ByteMemory} {results : List ReadResult} {st : Receiver}
    (run : Run (Receiver.Step env) (Receiver.init mem) results st)
    (htame : Tame (received results)) :
    ∃ ready, st.compact = some ready ∧ MIN_SIZE ≤ ready.left ∧
      ∀ result, ready.Offers result → Tame (received (results ++ [result])) →
        Separated (results ++ [result]) →
        Harmless env Globals.init (frame (received (results ++ [result]))).2 →
        ∃ st', st.Step env result st' := by
  obtain ⟨consumed, pending, hstate⟩ := run_state run htame
  obtain ⟨ready, hcompact, hroom, hround⟩ := hstate.holds.round env
  refine ⟨ready, hcompact, hroom, ?_⟩
  intro result hoffer hnext hsep hharmless
  rw [hstate.frame_next hsep, harmless_append] at hharmless
  rw [← hstate.globals hharmless.1] at hharmless
  rw [received_concat] at hnext
  obtain ⟨hne, hfew⟩ := next_small hnext hstate.parts hstate.holds.few
  exact (hround result hne hfew).1 hoffer hharmless.2

/-- Reads of a single byte bring no stray line. -/
theorem separated_bytewise (stream : Bytes) :
    Separated (stream.map fun b => .bytes [b]) := by
  rintro pre chunk post h ⟨i, r, ⟨p, gap, c, w, v, hs, -, -, -, -, hi, -⟩, hlen⟩
  have hchunk : ReadResult.bytes chunk ∈ stream.map fun b => ReadResult.bytes [b] := by
    rw [h]
    simp
  obtain ⟨b, -, hb⟩ := List.mem_map.1 hchunk
  cases hb
  have hlength := congrArg List.length hs
  simp only [List.length_append, List.length_cons, List.length_nil] at hlength
  omega

/-- A stream whose sentences are harmless can be received byte by byte. -/
theorem exists_bytewise_run (env : Env) (mem : ByteMemory) (stream : Bytes) (htame : Tame stream)
    (hharmless : Harmless env Globals.init (frame stream).2) :
    ∃ st, Receives stream (stream.map fun b => .bytes [b]) st := by
  suffices h : ∃ st, Run (Receiver.Step env) (Receiver.init mem)
      (stream.map fun b => .bytes [b]) st ∧
      received (stream.map fun b => ReadResult.bytes [b]) = stream by
    obtain ⟨st, run, hall⟩ := h
    exact ⟨st, ⟨env, mem, run⟩, hall⟩
  induction stream using List.reverseRecOn with
  | nil => exact ⟨_, .nil, rfl⟩
  | append_singleton s b ih =>
    have hprev : Harmless env Globals.init (frame s).2 := by
      rw [frame, Framer.feed_append_snd, harmless_append] at hharmless
      exact hharmless.1
    obtain ⟨st, run, hall⟩ := ih htame.of_append hprev
    have hlast : received (s.map (fun b => ReadResult.bytes [b]) ++ [.bytes [b]]) = s ++ [b] := by
      rw [received_concat, hall]
      rfl
    have hsep := separated_bytewise (s ++ [b])
    rw [List.map_append, List.map_singleton] at hsep ⊢
    obtain ⟨ready, -, hroom, hgo⟩ := run_goes_on run (hall.symm ▸ htame.of_append)
    obtain ⟨st', hstep⟩ := hgo (.bytes [b])
      (by simp only [Receiver.Offers, List.length_singleton, MIN_SIZE] at hroom ⊢; omega)
      (hlast.symm ▸ htame) hsep (hlast.symm ▸ hharmless)
    exact ⟨st', run.snoc hstep, hlast⟩

/-- A `'\r'` among any 900 consecutive bytes. -/
theorem tame_of_every_900 {stream : Bytes} (hnul : 0 ∉ stream)
    (hcr : ∀ x, x <:+: stream → x.length = 900 → cr ∈ x) : Tame stream := by
  have hsuffix : fromDollar stream <:+ stream := List.dropWhile_suffix _
  refine ⟨fun hmem => hnul (hsuffix.subset hmem), ?_⟩
  intro x hx hno
  by_contra hlong
  have htake : x.take 900 <:+: stream :=
    (List.take_prefix 900 x).isInfix.trans (hx.trans hsuffix.isInfix)
  have hmem := hcr _ htake (by rw [List.length_take]; omega)
  exact hno (List.mem_of_mem_take hmem)

/-- For which streams the strings handed to `parse_packet` do not depend on how the reads cut
them: no read of a run that receives the whole stream may bring a stray line. Where each sentence
has the columns that its parser looks for, the stream can be received byte by byte, and nothing less
will do. -/
theorem framing_cut_independent_iff (stream : Bytes) (hnul : 0 ∉ stream)
    (hcr : ∀ x, x <:+: stream → x.length = 900 → cr ∈ x) :
    ((∀ results st, Receives stream results st → Separated results) →
      ∀ results st results' st', Receives stream results st → Receives stream results' st' →
        st.texts = st'.texts) ∧
    ((∀ p ∈ (frame stream).2, 3 ≤ p.length → Gps.Fits p) →
      (∀ results st results' st', Receives stream results st → Receives stream results' st' →
        st.texts = st'.texts) →
      ∀ results st, Receives stream results st → Separated results) := by
  have htame := tame_of_every_900 hnul hcr
  constructor
  · intro hsep results st results' st' h h'
    rw [(texts_eq_iff htame h).2 (hsep _ _ h), (texts_eq_iff htame h').2 (hsep _ _ h')]
  · intro hfits hsame results st h
    obtain ⟨st', hbytewise⟩ := exists_bytewise_run ⟨default, fun _ => false⟩ (fun _ => 0) stream
      htame (harmless_of_fits rfl hfits)
    rw [← texts_eq_iff htame h, hsame _ _ _ _ h hbytewise, texts_eq_iff htame hbytewise]
    exact separated_bytewise stream

/-- `"$A\r\nB\r"`. -/
def strayStream : Bytes := [dollar, ascii 'A', cr, lf, ascii 'B', cr]

theorem strayStream_every_900 (x : Bytes) (hx : x <:+: strayStream) (hlen : x.length = 900) :
    cr ∈ x := by
  have hle : x.length ≤ 6 := hx.length_le
  omega

/-- `"$A\r\n$B\r"`. -/
def cleanStream : Bytes := [dollar, ascii 'A', cr, lf, dollar, ascii 'B', cr]

theorem not_hasStray_cleanStream : ¬ HasStray cleanStream := by
  have hfirst : IsLine [dollar, ascii 'A'] := ⟨[ascii 'A'], rfl, by decide⟩
  have hsecond : IsLine [dollar, ascii 'B'] := ⟨[ascii 'B'], rfl, by decide⟩
  have hline := @hasStray_line _ [lf] [ascii 'B', cr] dollar hfirst (Or.inl rfl)
  rw [if_pos rfl] at hline
  intro hstray
  exact absurd (cr_mem_of_hasStray hsecond.cr_notMem (hline.1 hstray)) List.not_mem_nil

/-- However the reads cut `cleanStream`, the same strings are handed on; for `strayStream` that
would take reads which all bring no stray line. -/
theorem framing_cut_independent_iff_clean :
    (∀ results st results' st', Receives cleanStream results st →
      Receives cleanStream results' st' → st.texts = st'.texts) ∧
    ((∀ results st results' st', Receives strayStream results st →
      Receives strayStream results' st' → st.texts = st'.texts) →
      ∀ results st, Receives strayStream results st → Separated results) := by
  have hevery : ∀ x, x <:+: cleanStream → x.length = 900 → cr ∈ x := by
    intro x hx hlen
    have hle : x.length ≤ 7 := hx.length_le
    omega
  have hshort : (frame strayStream).2 = [[dollar, ascii 'A']] := by decide
  constructor
  · refine (framing_cut_independent_iff cleanStream (by decide) hevery).1 ?_
    intro results st h
    exact separated_of_not_hasStray (h.all ▸ not_hasStray_cleanStream)
  · refine (framing_cut_independent_iff strayStream (by decide) strayStream_every_900).2 ?_
    rw [hshort]
    simp

/-- In one read the stray line is handed on, byte by byte it is not. -/
theorem framing_depends_on_cuts :
    0 ∉ strayStream ∧ (∀ x, x <:+: strayStream → x.length = 900 → cr ∈ x) ∧
    ¬ ∀ results st results' st', Receives strayStream results st →
      Receives strayStream results' st' → st.texts = st'.texts := by
  have htame := tame_of_every_900 (by decide : 0 ∉ strayStream) strayStream_every_900
  let env : Env := ⟨default, fun _ => false⟩
  have hframe : (frame strayStream).2 = [[dollar, ascii 'A']] := by decide
  have hparse : (parse strayStream).1 = [[dollar, ascii 'A'], [ascii 'B']] := by decide
  refine ⟨by decide, strayStream_every_900, ?_⟩
  intro hsame
  obtain ⟨st', hbytewise⟩ := exists_bytewise_run env (fun _ => 0) strayStream htame
    (harmless_of_short (by rw [hframe]; simp))
  obtain ⟨ready, -, hroom, hround⟩ := (Holds.init fun _ => 0).round env
  obtain ⟨st, hstep⟩ := (hround (.bytes strayStream) (fun _ h => by cases h; decide) (by decide)).1
    (by simp only [Receiver.Offers, strayStream, MIN_SIZE, List.length_cons, List.length_nil]
          at hroom ⊢; omega)
    (harmless_of_short (by rw [nextTexts, List.nil_append, hparse]; simp))
  have hwhole : Receives strayStream [.bytes strayStream] st :=
    ⟨⟨env, _, Run.nil.snoc hstep⟩, rfl⟩
  have heq := hsame _ _ _ _ hwhole hbytewise
  rw [(texts_eq_iff htame hbytewise).2 (separated_bytewise strayStream),
    texts_eq_iff htame hwhole] at heq
  refine heq [] strayStream [] rfl ⟨2, 5, ?_, Nat.zero_le 2⟩
  exact ⟨[dollar, ascii 'A'], [lf], ascii 'B', [], [], rfl,
    ⟨[], [ascii 'A'], rfl, by decide⟩, Or.inl rfl, by decide, by simp, rfl, rfl⟩

end ReadGps
end CFunction
