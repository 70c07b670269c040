import CFunction.Uart.Proofs.Framing

/-!
# Streams of NMEA sentences

A receiver that is switched on in the middle of a line sees some bytes without `$` and then
sentences, each followed by `"\r\n"`. However the reads cut such a stream, the strings handed to
`parse_packet` are the sentences whose `'\r'` has arrived.
-/

namespace CFunction
namespace ReadGps

open CString Gps

/-- The text of a sentence between `$` and `'\r'`. -/
structure IsBody (body : Bytes) : Prop where
  atLeast : 3 ≤ body.length
  atMost : body.length + 3 ≤ 900
  no_dollar : dollar ∉ body
  no_cr : cr ∉ body
  no_lf : lf ∉ body
  no_nul : 0 ∉ body

instance (body : Bytes) : Decidable (IsBody body) :=
  decidable_of_iff (3 ≤ body.length ∧ body.length + 3 ≤ 900 ∧ dollar ∉ body ∧ cr ∉ body ∧
    lf ∉ body ∧ 0 ∉ body)
    ⟨fun ⟨h₁, h₂, h₃, h₄, h₅, h₆⟩ => ⟨h₁, h₂, h₃, h₄, h₅, h₆⟩,
      fun h => ⟨h.atLeast, h.atMost, h.no_dollar, h.no_cr, h.no_lf, h.no_nul⟩⟩

/-- The bytes of the sentences. -/
def encodeSentences : List Bytes → Bytes
  | [] => []
  | body :: bodies => dollar :: body ++ cr :: lf :: encodeSentences bodies

/-- The sentences whose `'\r'` is among the first `n` bytes of them. -/
def arrived : List Bytes → Nat → List Bytes
  | [], _ => []
  | body :: bodies, n =>
    if body.length + 2 ≤ n then (dollar :: body) :: arrived bodies (n - (body.length + 3)) else []

theorem arrived_zero (bodies : List Bytes) : arrived bodies 0 = [] := by
  cases bodies with
  | nil => rfl
  | cons body bodies => rw [arrived, if_neg (by omega)]

theorem IsBody.isLine {body : Bytes} (h : IsBody body) : IsLine (dollar :: body) :=
  ⟨body, rfl, h.no_cr⟩

theorem encodeSentences_eq_cons {bodies : List Bytes} {c : UInt8} {s : Bytes}
    (h : c :: s <+: encodeSentences bodies) : c = dollar := by
  cases bodies with
  | nil => simp [encodeSentences] at h
  | cons body bodies => exact (List.cons_prefix_cons.1 h).1

/-- How far into the first sentence a prefix of the stream goes. -/
theorem prefix_sentence_cases {s body rest : Bytes}
    (h : s <+: dollar :: body ++ cr :: lf :: rest) :
    s <+: dollar :: body ∨ s = dollar :: body ++ [cr] ∨
      ∃ u, u <+: rest ∧ s = dollar :: body ++ cr :: lf :: u := by
  rcases prefix_append_cases h with hs | ⟨u, rfl, hu⟩
  · exact Or.inl hs
  · rcases List.prefix_cons_iff.1 hu with rfl | ⟨u, rfl, hu'⟩
    · left
      rw [List.append_nil]
    · right
      rcases List.prefix_cons_iff.1 hu' with rfl | ⟨u, rfl, hu''⟩
      · exact Or.inl rfl
      · exact Or.inr ⟨u, hu'', rfl⟩

/-- The framer on a prefix of the sentences. -/
theorem frame_prefix (bodies : List Bytes) : ∀ s, (∀ body ∈ bodies, IsBody body) →
    s <+: encodeSentences bodies → (frame s).2 = arrived bodies s.length := by
  induction bodies with
  | nil =>
    intro s _ hs
    rw [List.prefix_nil.1 hs]
    rfl
  | cons body bodies ih =>
    intro s hbodies hs
    have hbody := hbodies body List.mem_cons_self
    rw [arrived]
    rcases prefix_sentence_cases hs with hs | rfl | ⟨u, hu, rfl⟩
    · have hlen := hs.length_le
      rw [List.length_cons] at hlen
      rw [if_neg (by omega)]
      exact frame_no_cr fun hmem => hbody.isLine.cr_notMem (hs.subset hmem)
    · rw [frame_line hbody.isLine, if_pos (by simp)]
      simp [frame, Framer.feed, arrived_zero]
    · have hrest := ih u (fun b hb => hbodies b (List.mem_cons_of_mem body hb)) hu
      rw [frame_line hbody.isLine, frame_skip (by decide), hrest, if_pos (by simp)]
      simp only [List.length_append, List.length_cons]
      congr 2
      omega

/-- No prefix of the sentences has a stray line. -/
theorem not_hasStray_prefix (bodies : List Bytes) : ∀ s, (∀ body ∈ bodies, IsBody body) →
    s <+: encodeSentences bodies → ¬ HasStray s := by
  induction bodies with
  | nil =>
    intro s _ hs
    rw [List.prefix_nil.1 hs]
    exact not_hasStray_of_notMem (by simp)
  | cons body bodies ih =>
    intro s hbodies hs
    have hbody := hbodies body List.mem_cons_self
    rcases prefix_sentence_cases hs with hs | rfl | ⟨u, hu, rfl⟩
    · exact not_hasStray_of_notMem fun hmem => hbody.isLine.cr_notMem (hs.subset hmem)
    · exact fun hstray => absurd (cr_mem_of_hasStray hbody.isLine.cr_notMem hstray) (by simp)
    · cases u with
      | nil =>
        exact fun hstray => absurd (cr_mem_of_hasStray hbody.isLine.cr_notMem hstray) (by decide)
      | cons c u =>
        have hc := encodeSentences_eq_cons hu
        have hline := @hasStray_line _ [lf] u c hbody.isLine (Or.inl rfl)
        rw [if_pos hc] at hline
        exact fun hstray => ih _ (fun b hb => hbodies b (List.mem_cons_of_mem body hb)) hu
          (hline.1 hstray)

theorem short_prefix {bodies : List Bytes} (hbodies : ∀ body ∈ bodies, IsBody body) {x : Bytes}
    (hx : x <+: encodeSentences bodies) (hcr : cr ∉ x) : x.length ≤ 898 := by
  cases bodies with
  | nil =>
    rw [List.prefix_nil.1 hx]
    exact Nat.zero_le 898
  | cons body bodies =>
    have hmax := (hbodies body List.mem_cons_self).atMost
    rcases prefix_sentence_cases hx with hx | rfl | ⟨u, -, rfl⟩
    · have hlen := hx.length_le
      rw [List.length_cons] at hlen
      omega
    · exact absurd (by simp) hcr
    · exact absurd (by simp) hcr

/-- Between two `'\r'` of the sentences there are less than 900 bytes. -/
theorem short_infix (bodies : List Bytes) : ∀ x, (∀ body ∈ bodies, IsBody body) →
    x <:+: encodeSentences bodies → cr ∉ x → x.length < 900 := by
  induction bodies with
  | nil =>
    intro x _ hx _
    rw [List.infix_nil.1 hx]
    decide
  | cons body bodies ih =>
    intro x hbodies hx hcr
    have hbody := hbodies body List.mem_cons_self
    have hmax := hbody.atMost
    have hrest := fun b hb => hbodies b (List.mem_cons_of_mem body hb)
    have hsplit : encodeSentences (body :: bodies) =
        (dollar :: body) ++ (cr :: (lf :: encodeSentences bodies)) := rfl
    rw [hsplit, List.infix_append_iff_ne_nil] at hx
    rcases hx with hx | hx | ⟨l₁, l₂, -, hne, rfl, -, hx⟩
    · have hlen := hx.length_le
      rw [List.length_cons] at hlen
      omega
    · rcases List.infix_cons_iff.1 hx with hx | hx
      · rcases List.prefix_cons_iff.1 hx with rfl | ⟨t, rfl, -⟩
        · decide
        · exact absurd List.mem_cons_self hcr
      · rcases List.infix_cons_iff.1 hx with hx | hx
        · rcases List.prefix_cons_iff.1 hx with rfl | ⟨t, rfl, ht⟩
          · decide
          · have hlen := short_prefix hrest ht fun hmem => hcr (List.mem_cons_of_mem lf hmem)
            rw [List.length_cons]
            omega
        · exact ih x hrest hx hcr
    · rcases List.prefix_cons_iff.1 hx with rfl | ⟨t, rfl, -⟩
      · exact absurd rfl hne
      · exact absurd (by simp) hcr

/-- A stream of the receiver: no `$`, then sentences; or the beginning of one. -/
structure WellFormed (junk : Bytes) (bodies : List Bytes) (stream : Bytes) : Prop where
  noDollar : dollar ∉ junk
  areBodies : ∀ body ∈ bodies, IsBody body
  isPrefix : stream <+: junk ++ encodeSentences bodies

/-- A well-formed stream has no sentence yet, or is its junk and a prefix of the sentences. -/
theorem WellFormed.cases {junk stream : Bytes} {bodies : List Bytes}
    (h : WellFormed junk bodies stream) :
    (dollar ∉ stream ∧ stream.length ≤ junk.length) ∨
      ∃ s, stream = junk ++ s ∧ s <+: encodeSentences bodies := by
  rcases prefix_append_cases h.isPrefix with hs | ⟨s, rfl, hs⟩
  · exact Or.inl ⟨fun hmem => h.noDollar (hs.subset hmem), hs.length_le⟩
  · exact Or.inr ⟨s, rfl, hs⟩

theorem WellFormed.frame_eq {junk stream : Bytes} {bodies : List Bytes}
    (h : WellFormed junk bodies stream) :
    (frame stream).2 = arrived bodies (stream.length - junk.length) := by
  rcases h.cases with ⟨hno, hlen⟩ | ⟨s, rfl, hs⟩
  · rw [frame, Framer.feed_hunt hno, Nat.sub_eq_zero_of_le hlen, arrived_zero]
  · rw [frame_junk h.noDollar, frame_prefix bodies s h.areBodies hs, List.length_append,
      Nat.add_sub_cancel_left]

theorem WellFormed.not_hasStray {junk stream : Bytes} {bodies : List Bytes}
    (h : WellFormed junk bodies stream) : ¬ HasStray stream := by
  rcases h.cases with ⟨hno, -⟩ | ⟨s, rfl, hs⟩
  · rw [← List.append_nil stream, hasStray_junk hno]
    exact not_hasStray_of_notMem (by simp)
  · rw [hasStray_junk h.noDollar]
    exact not_hasStray_prefix bodies s h.areBodies hs

theorem zero_notMem_encodeSentences {bodies : List Bytes} (h : ∀ body ∈ bodies, IsBody body) :
    0 ∉ encodeSentences bodies := by
  induction bodies with
  | nil => simp [encodeSentences]
  | cons body bodies ih =>
    have hbody := (h body List.mem_cons_self).no_nul
    have hrest := ih fun b hb => h b (List.mem_cons_of_mem body hb)
    simp [encodeSentences, hbody, hrest, ascii]

theorem WellFormed.tame {junk stream : Bytes} {bodies : List Bytes}
    (h : WellFormed junk bodies stream) : Tame stream := by
  have hstarts : fromDollar stream <+: encodeSentences bodies := by
    rcases h.cases with ⟨hno, -⟩ | ⟨s, rfl, hs⟩
    · rw [fromDollar_of_notMem hno]
      exact List.nil_prefix
    · cases s with
      | nil =>
        rw [List.append_nil, fromDollar_of_notMem h.noDollar]
        exact List.nil_prefix
      | cons c s =>
        have hc := encodeSentences_eq_cons hs
        subst hc
        rw [fromDollar_append h.noDollar]
        exact hs
  refine ⟨fun hmem => zero_notMem_encodeSentences h.areBodies (hstarts.subset hmem), ?_⟩
  intro x hx hcr
  exact short_infix bodies x h.areBodies (hx.trans hstarts.isInfix) hcr

theorem WellFormed.of_prefix {junk stream s : Bytes} {bodies : List Bytes}
    (h : WellFormed junk bodies stream) (hs : s <+: stream) : WellFormed junk bodies s :=
  ⟨h.noDollar, h.areBodies, hs.trans h.isPrefix⟩

/-- The sentences that `bodies` make. -/
def sentences (bodies : List Bytes) : List Bytes := bodies.map fun body => dollar :: body

/-- The sentences that have arrived are the first ones. -/
theorem arrived_prefix (bodies : List Bytes) (n : Nat) : arrived bodies n <+: sentences bodies := by
  induction bodies generalizing n with
  | nil => exact List.prefix_rfl
  | cons body bodies ih =>
    rw [arrived]
    split
    · exact List.cons_prefix_cons.2 ⟨rfl, ih _⟩
    · exact List.nil_prefix

/-- The sentences of a stream that have arrived are harmless if all are. -/
theorem WellFormed.harmless {env : Env} {junk stream : Bytes} {bodies : List Bytes}
    (h : WellFormed junk bodies stream)
    (hharmless : Harmless env Globals.init (sentences bodies)) :
    Harmless env Globals.init (frame stream).2 := by
  obtain ⟨rest, hrest⟩ := arrived_prefix bodies (stream.length - junk.length)
  rw [← hrest, harmless_append] at hharmless
  rw [h.frame_eq]
  exact hharmless.1

section Run

variable {env : Env} {junk : Bytes} {bodies : List Bytes} {mem : ByteMemory}
  {results : List ReadResult} {st : Receiver}

theorem WellFormed.separated (h : WellFormed junk bodies (received results)) : Separated results :=
  separated_of_not_hasStray h.not_hasStray

/-- What the loop hands on in a run is what has arrived. -/
theorem WellFormed.texts_eq (h : WellFormed junk bodies (received results))
    (run : Run (Receiver.Step env) (Receiver.init mem) results st) :
    st.texts = arrived bodies ((received results).length - junk.length) := by
  rw [(texts_eq_iff h.tame ⟨⟨env, mem, run⟩, rfl⟩).2 h.separated, h.frame_eq]

/-- The loop goes on with every read of the stream whose sentences are harmless. -/
theorem WellFormed.goes_on (h : WellFormed junk bodies (received results))
    (hharmless : Harmless env Globals.init (sentences bodies))
    (run : Run (Receiver.Step env) (Receiver.init mem) results st) :
    ∃ ready, st.compact = some ready ∧ MIN_SIZE ≤ ready.left ∧
      ∀ result, ready.Offers result → WellFormed junk bodies (received (results ++ [result])) →
        ∃ st', st.Step env result st' := by
  obtain ⟨ready, hcompact, hroom, hgo⟩ := run_goes_on run h.tame
  refine ⟨ready, hcompact, hroom, fun result hoffer hnext => ?_⟩
  exact hgo result hoffer hnext.tame hnext.separated (hnext.harmless hharmless)

/-- Every sequence of short reads is a run. -/
theorem WellFormed.exists_run (hharmless : Harmless env Globals.init (sentences bodies))
    (mem : ByteMemory) (results : List ReadResult)
    (hreads : ∀ result ∈ results, result ≠ .error false ∧ result.data.length ≤ 64)
    (h : WellFormed junk bodies (received results)) :
    ∃ st, Run (Receiver.Step env) (Receiver.init mem) results st := by
  induction results using List.reverseRecOn with
  | nil => exact ⟨_, .nil⟩
  | append_singleton results result ih =>
    have hbefore : WellFormed junk bodies (received results) := by
      refine h.of_prefix ?_
      rw [received_concat]
      exact List.prefix_append _ _
    obtain ⟨st, run⟩ := ih (fun r hr => hreads r (List.mem_append_left _ hr)) hbefore
    obtain ⟨ready, -, hroom, hgo⟩ := hbefore.goes_on hharmless run
    obtain ⟨hrestarts, hshort⟩ := hreads result (List.mem_append_right _ List.mem_cons_self)
    have hoffer : ready.Offers result := by
      cases result with
      | etime => trivial
      | error restarted =>
        cases restarted with
        | false => exact absurd rfl hrestarts
        | true => rfl
      | bytes chunk =>
        have hlen : chunk.length ≤ 64 := hshort
        simp only [Receiver.Offers, MIN_SIZE] at hroom ⊢
        omega
    obtain ⟨st', hstep⟩ := hgo result hoffer h
    exact ⟨st', run.snoc hstep⟩

end Run

/-- What the receive loop does on a well-formed stream. -/
structure FramesExactly (env : Env) (junk : Bytes) (bodies : List Bytes)
    (results : List ReadResult) (st : Receiver) : Prop where
  /-- The strings handed on are the sentences that have arrived. -/
  texts_eq : st.texts = arrived bodies ((received results).length - junk.length)
  /-- There is room for the next read, and whatever it gives is handled. -/
  goes_on : ∃ ready, st.compact = some ready ∧ MIN_SIZE ≤ ready.left ∧
    ∀ result, ready.Offers result → WellFormed junk bodies (received (results ++ [result])) →
      ∃ st', st.Step env result st'

theorem nmea_framing_exact {env : Env} {junk : Bytes} {bodies : List Bytes} {mem : ByteMemory}
    {results : List ReadResult} {st : Receiver}
    (run : Run (Receiver.Step env) (Receiver.init mem) results st)
    (hstream : WellFormed junk bodies (received results))
    (hharmless : Harmless env Globals.init (sentences bodies)) :
    FramesExactly env junk bodies results st :=
  ⟨hstream.texts_eq run, hstream.goes_on hharmless run⟩

/-- The timer sends its signal in front of the second call of `parse_packet`. -/
def sampleEnv : Env := ⟨default, fun calls => calls = 1⟩

def sampleBodies : List Bytes :=
  [text "GNRMC,083559.00,A,3130.2,N,12024.1,E,0.5,77.5,091202,,,A*7D",
    text "GNGGA,083559.00,3130.2,N,12024.1,E,1,08,0.9,21.4,M*12", text "GPTXT,ok*00"]

/-- A stream of them behind the end of another line, in reads that cut the lines and the line ends,
some of which fail. The last sentence has not arrived. -/
def sampleReads : List ReadResult :=
  [.bytes (text "9*33" ++ [cr, lf] ++ text "$GNRMC,083559.00,A,3130.2,N"), .etime,
    .bytes (text ",12024.1,E,0.5,77.5,091202,,,A*7D" ++ [cr]), .error true,
    .bytes (lf :: text "$GNGGA,083559.00,3130.2,N,12024.1,E,1,08,0.9,21.4,M*12"), .bytes [],
    .bytes ([cr, lf] ++ text "$GPTXT,ok*0")]

theorem sampleBodies_harmless : Harmless sampleEnv Globals.init (sentences sampleBodies) := by
  refine ⟨⟨fun _ => ⟨by decide, fun _ _ => ⟨fun _ => ?_, fun h => ?_⟩⟩, fun _ _ h => ?_⟩,
    ⟨fun _ => ⟨by decide, fun _ _ => ⟨fun h => ?_, fun _ => ?_⟩⟩, fun _ _ _ _ => ?_⟩,
    ⟨fun _ => ⟨by decide, fun _ h => ?_⟩, fun _ h => ?_⟩, trivial⟩
  · exact Gps.gnrmcFits_whole
  · exact absurd h (by decide)
  · exact absurd h (by decide)
  · exact absurd h (by decide)
  · exact Gps.gnggaFits_whole
  · exact ⟨by decide, fun _ => ⟨by decide, fun _ _ => by decide⟩⟩
  · exact absurd h (by decide)
  · exact absurd h (by decide)

/-- The first two sentences have arrived, and the loop goes on. -/
theorem nmea_framing_exact_sample :
    ∃ st, FramesExactly sampleEnv (text "9*33" ++ [cr, lf]) sampleBodies sampleReads st := by
  have hstream : WellFormed (text "9*33" ++ [cr, lf]) sampleBodies (received sampleReads) :=
    ⟨by decide, by decide, ⟨text "0" ++ [cr, lf], by decide⟩⟩
  obtain ⟨st, run⟩ := hstream.exists_run sampleBodies_harmless (fun _ => 0) sampleReads (by decide)
  exact ⟨st, nmea_framing_exact run hstream sampleBodies_harmless⟩

/-- A sentence whose date copy gets the length `-1`, and one behind it. -/
def crashBodies : List Bytes := [text "GNRMC,A,*14", text "GPTXT,ok*00"]

/-- When one read brings both sentences, the loop does not go on to the second one. -/
theorem nmea_framing_crashes :
    ¬ ∀ results st, Run (Receiver.Step sampleEnv) (Receiver.init fun _ => 0) results st →
      WellFormed [] crashBodies (received results) →
      FramesExactly sampleEnv [] crashBodies results st := by
  have hbodies : ∀ body ∈ crashBodies, IsBody body := by decide
  have hoffer : (Receiver.init fun _ => 0).Offers (.bytes (encodeSentences crashBodies)) :=
    show ((encodeSentences crashBodies).length : Int) ≤ 2047 by decide
  intro h
  obtain ⟨ready, hcompact, -, hgo⟩ :=
    (h [] _ .nil ⟨List.not_mem_nil, hbodies, List.nil_prefix⟩).goes_on
  obtain rfl : Receiver.init (fun _ => 0) = ready := Option.some.inj hcompact
  obtain ⟨st', hstep⟩ := hgo _ hoffer
    ⟨List.not_mem_nil, hbodies, List.prefix_rfl⟩
  have hnone : (Receiver.init fun _ => 0).round sampleEnv
      (.bytes (encodeSentences crashBodies)) = none := rfl
  exact Option.some_ne_none st' (hstep.symm.trans hnone)

end ReadGps
end CFunction
