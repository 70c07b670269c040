import CFunction.Misc.Framer
import CFunction.Uart.Proofs.ParseBuf

/-!
# Stray lines

`parse_buf` looks for `$` at the start of a call only. Behind a sentence it takes whatever comes
up to the next `'\r'` for a packet, so that a call agrees with the framer unless the bytes it
parses hold a sentence, a byte other than `$` behind it, and another `'\r'`: a stray line.
-/

namespace CFunction
namespace ReadGps

open CString

/-- The bytes read from the start on: the unfinished sentence and the finished ones. -/
abbrev frame (s : Bytes) : Bytes × List Bytes := Framer.feed dollar cr [] s

abbrev InSentence (s : Bytes) : Prop := Framer.Open dollar cr s

theorem dollar_ne_cr : dollar ≠ cr := by decide

/-- What the scanner skips behind a `'\r'`, in front of the byte `c`. -/
def Gap (gap : Bytes) (c : UInt8) : Prop := gap = [lf] ∨ gap = [] ∧ c ≠ lf

/-- The `'\r'` at `i` closes a sentence, the next byte that is not skipped is no `$`, and `r` is
the next `'\r'` after that byte. -/
def StrayAt (s : Bytes) (i r : Nat) : Prop :=
  ∃ p gap c w v, s = p ++ cr :: (gap ++ c :: (w ++ cr :: v)) ∧ InSentence p ∧ Gap gap c ∧
    c ≠ dollar ∧ cr ∉ w ∧ i = p.length ∧ r = i + gap.length + w.length + 2

def HasStray (s : Bytes) : Prop := ∃ i r, StrayAt s i r

/-- A sentence that no `'\r'` has closed yet. -/
def IsLine (cur : Bytes) : Prop := ∃ q, cur = dollar :: q ∧ cr ∉ q

theorem IsLine.cr_notMem {cur : Bytes} (h : IsLine cur) : cr ∉ cur := by
  obtain ⟨q, rfl, hq⟩ := h
  rw [List.mem_cons, not_or]
  exact ⟨by decide, hq⟩

theorem IsLine.inSentence {cur : Bytes} (h : IsLine cur) : InSentence cur := by
  obtain ⟨q, rfl, hq⟩ := h
  exact ⟨[], q, rfl, hq⟩

theorem IsLine.concat {cur : Bytes} {b : UInt8} (h : IsLine cur) (hb : b ≠ cr) :
    IsLine (cur ++ [b]) := by
  obtain ⟨q, rfl, hq⟩ := h
  refine ⟨q ++ [b], rfl, ?_⟩
  rw [List.mem_append, List.mem_singleton]
  exact not_or.2 ⟨hq, Ne.symm hb⟩

theorem isLine_dollar : IsLine [dollar] := ⟨[], rfl, by simp⟩

/-- A closed line in front of the bytes `s`. -/
theorem frame_line {cur : Bytes} (h : IsLine cur) (s : Bytes) :
    frame (cur ++ cr :: s) = ((frame s).1, cur :: (frame s).2) := by
  obtain ⟨q, rfl, hq⟩ := h
  exact Framer.feed_frame hq s

theorem frame_no_cr {s : Bytes} (h : cr ∉ s) : (frame s).2 = [] := Framer.feed_no_stop h []

theorem frame_skip {b : UInt8} (hb : b ≠ dollar) (s : Bytes) : frame (b :: s) = frame s :=
  Framer.feed_skip hb s

theorem frame_gap {gap : Bytes} {c : UInt8} (h : Gap gap c) (s : Bytes) :
    frame (gap ++ s) = frame s := by
  rcases h with rfl | ⟨rfl, -⟩
  · exact frame_skip (by decide) s
  · rfl

theorem not_hasStray_of_notMem {s : Bytes} (h : cr ∉ s) : ¬ HasStray s := by
  rintro ⟨i, r, p, gap, c, w, v, rfl, -⟩
  exact h (by simp)

theorem hasStray_cons_of_ne {b : UInt8} (hb : b ≠ dollar) (s : Bytes) :
    HasStray (b :: s) ↔ HasStray s := by
  constructor
  · rintro ⟨i, r, p, gap, c, w, v, hs, hopen, hgap, hc, hw, -, -⟩
    cases p with
    | nil => exact absurd hopen Framer.not_open_nil
    | cons a p =>
      injection hs with ha hs
      rw [← ha, InSentence, Framer.open_cons_of_ne dollar_ne_cr hb] at hopen
      exact ⟨_, _, p, gap, c, w, v, hs, hopen, hgap, hc, hw, rfl, rfl⟩
  · rintro ⟨i, r, p, gap, c, w, v, rfl, hopen, hgap, hc, hw, -, -⟩
    refine ⟨_, _, b :: p, gap, c, w, v, rfl, ?_, hgap, hc, hw, rfl, rfl⟩
    exact (Framer.open_cons_of_ne dollar_ne_cr hb p).2 hopen

/-- The first `'\r'` of a list, met twice. -/
theorem eq_or_append_of_cr {p p' s s' : Bytes} (hp : cr ∉ p)
    (h : p ++ cr :: s = p' ++ cr :: s') : p' = p ∧ s' = s ∨ ∃ q, p' = p ++ cr :: q ∧
      s = q ++ cr :: s' := by
  rcases List.append_eq_append_iff.1 h with ⟨a, rfl, ha⟩ | ⟨a, rfl, ha⟩
  · cases a with
    | nil =>
      injection ha with _ hs
      exact Or.inl ⟨List.append_nil p, hs.symm⟩
    | cons b a =>
      injection ha with hb hs
      exact Or.inr ⟨a, by rw [hb], hs⟩
  · cases a with
    | nil =>
      injection ha with _ hs
      exact Or.inl ⟨(List.append_nil p').symm, hs⟩
    | cons b a =>
      injection ha with hb hs
      exact absurd (by simp [hb]) hp

theorem gap_unique {gap gap' rest rest' : Bytes} {c c' : UInt8} (h : Gap gap c) (h' : Gap gap' c')
    (heq : gap ++ c :: rest = gap' ++ c' :: rest') : gap = gap' ∧ c = c' ∧ rest = rest' := by
  rcases h with rfl | ⟨rfl, hc⟩
  · rcases h' with rfl | ⟨rfl, hc'⟩
    · injection heq with _ heq
      injection heq with h1 h2
      exact ⟨rfl, h1, h2⟩
    · injection heq with h1 _
      exact absurd h1.symm hc'
  · rcases h' with rfl | ⟨rfl, hc'⟩
    · injection heq with h1 _
      exact absurd h1 hc
    · injection heq with h1 h2
      exact ⟨rfl, h1, h2⟩

theorem cr_mem_of_hasStray {cur s : Bytes} (hcur : cr ∉ cur) (h : HasStray (cur ++ cr :: s)) :
    cr ∈ s := by
  obtain ⟨i, r, p, gap, c, w, v, hs, -⟩ := h
  rcases eq_or_append_of_cr hcur hs with ⟨-, h⟩ | ⟨q, -, h⟩
  · simp [← h]
  · simp [h]

/-- The first sentence of a list is followed by a stray line, or by `$`, or by bytes without
another `'\r'`. -/
theorem hasStray_line {cur gap rest : Bytes} {c : UInt8} (hline : IsLine cur) (hgap : Gap gap c) :
    HasStray (cur ++ cr :: (gap ++ c :: rest)) ↔
      if c = dollar then HasStray (c :: rest) else cr ∈ rest := by
  have hopen := hline.inSentence
  have hcur := hline.cr_notMem
  have hskip : HasStray (gap ++ c :: rest) ↔ HasStray (c :: rest) := by
    rcases hgap with rfl | ⟨rfl, -⟩
    · exact hasStray_cons_of_ne (by decide) _
    · rfl
  have hsplit : HasStray (cur ++ cr :: (gap ++ c :: rest)) ↔
      (c ≠ dollar ∧ cr ∈ rest) ∨ HasStray (c :: rest) := by
    rw [← hskip]
    constructor
    · rintro ⟨i, r, p, gap', c', w, v, hs, hp, hgap', hc', hw, -, -⟩
      rcases eq_or_append_of_cr hcur hs with ⟨-, h⟩ | ⟨q, rfl, h⟩
      · obtain ⟨-, rfl, rfl⟩ := gap_unique hgap' hgap h
        exact Or.inl ⟨hc', by simp⟩
      · right
        rw [InSentence, Framer.open_append_stop dollar_ne_cr] at hp
        exact ⟨_, _, q, gap', c', w, v, h, hp, hgap', hc', hw, rfl, rfl⟩
    · rintro (⟨hc, hmem⟩ | ⟨i, r, p, gap', c', w, v, hs, hp, hgap', hc', hw, -, -⟩)
      · obtain ⟨w, v, rfl, hw⟩ := List.eq_append_cons_of_mem hmem
        exact ⟨_, _, cur, gap, c, w, v, rfl, hopen, hgap, hc, hw, rfl, rfl⟩
      · refine ⟨_, _, cur ++ cr :: p, gap', c', w, v, by rw [hs]; simp, ?_, hgap', hc', hw, rfl,
          rfl⟩
        exact (Framer.open_append_stop dollar_ne_cr cur p).2 hp
  rw [hsplit]
  by_cases hc : c = dollar
  · simp [hc]
  · rw [if_neg hc, hasStray_cons_of_ne hc]
    constructor
    · rintro (⟨-, hmem⟩ | hstray)
      · exact hmem
      · by_contra hmem
        exact not_hasStray_of_notMem hmem hstray
    · exact fun hmem => Or.inl ⟨hc, hmem⟩

/-! ### One call -/

/-- A line that the scanner is inside of is handed on at the next `'\r'`. -/
theorem mem_split {w : Bytes} (hw : cr ∉ w) (v cur : Bytes) :
    cur ++ w ∈ (split cur (w ++ cr :: v)).1 := by
  induction w generalizing cur with
  | nil =>
    rw [List.append_nil, List.nil_append, split.eq_def]
    cases v with
    | nil => simp
    | cons c v =>
      simp only [if_true]
      split
      · cases v <;> simp
      · simp
  | cons b w ih =>
    rw [List.mem_cons, not_or] at hw
    rw [List.cons_append, split_of_ne (Ne.symm hw.1)]
    simpa using ih hw.2 (cur ++ [b])

theorem split_no_cr {rest : Bytes} (h : cr ∉ rest) (cur : Bytes) :
    split cur rest = ([], cur ++ rest) := by
  induction rest generalizing cur with
  | nil => simp [split]
  | cons b rest ih =>
    rw [List.mem_cons, not_or] at h
    rw [split_of_ne (Ne.symm h.1), ih h.2]
    simp

/-- What a call should do with `bytes`: the bytes it uses hold exactly the packets as their
sentences, and no sentence is finished in the bytes it leaves. -/
structure Frames (bytes : Bytes) (result : List Bytes × Bytes) (used : Bytes) : Prop where
  parts : bytes = used ++ result.2
  packets : frame used = ([], result.1)
  left : (frame result.2).2 = []

/-- A line in front of bytes that are framed. -/
theorem Frames.cons {cur gap rest used : Bytes} {c : UInt8} {result : List Bytes × Bytes}
    (hline : IsLine cur) (hgap : Gap gap c) (h : Frames rest result used) :
    Frames (cur ++ cr :: (gap ++ rest)) (cur :: result.1, result.2)
      (cur ++ cr :: (gap ++ used)) := by
  refine ⟨?_, ?_, h.left⟩
  · simp [h.parts]
  · rw [frame_line hline, frame_gap hgap, h.packets]

/-- Behind a line the scanner frames the rest if it starts with `$`, or holds no `'\r'`. -/
theorem frames_line {cur gap rest : Bytes} {c : UInt8} (hline : IsLine cur) (hgap : Gap gap c)
    (ih : IsLine [c] → ¬ HasStray ([c] ++ rest) →
      ∃ used, Frames ([c] ++ rest) (split [c] rest) used)
    (hno : ¬ HasStray (cur ++ cr :: (gap ++ c :: rest))) :
    ∃ used, Frames (cur ++ cr :: (gap ++ c :: rest))
      (cur :: (split [c] rest).1, (split [c] rest).2) used := by
  rw [hasStray_line hline hgap] at hno
  by_cases hc : c = dollar
  · rw [if_pos hc] at hno
    obtain ⟨used, hused⟩ := ih (hc ▸ isLine_dollar) hno
    exact ⟨_, Frames.cons hline hgap hused⟩
  · rw [if_neg hc] at hno
    have hleft : Frames (c :: rest) (split [c] rest) [] := by
      rw [split_no_cr hno]
      exact ⟨rfl, rfl, (congrArg Prod.snd (frame_skip hc rest)).trans (frame_no_cr hno)⟩
    exact ⟨_, Frames.cons hline hgap hleft⟩

/-- A call on bytes without a stray line frames them. -/
theorem split_frames (cur rest : Bytes) : IsLine cur → ¬ HasStray (cur ++ rest) →
    ∃ used, Frames (cur ++ rest) (split cur rest) used := by
  induction cur, rest using split.induct with
  | case1 cur =>
    intro hline _
    refine ⟨[], by simp [split], rfl, ?_⟩
    exact frame_no_cr hline.cr_notMem
  | case2 cur =>
    intro hline _
    refine ⟨cur ++ [cr], by simp [split], ?_, rfl⟩
    rw [frame_line hline]
    simp [split, Framer.feed]
  | case3 cur =>
    intro hline _
    refine ⟨cur ++ [cr, lf], by simp [split], ?_, by simp [split, Framer.feed]⟩
    rw [frame_line hline, frame_skip (by decide)]
    simp [split, Framer.feed]
  | case4 cur d rest ih =>
    intro hline hno
    rw [split_cr_lf]
    exact frames_line hline (Or.inl rfl) ih hno
  | case5 cur c rest hc ih =>
    intro hline hno
    rw [split_cr hc]
    exact frames_line hline (Or.inr ⟨rfl, hc⟩) ih hno
  | case6 cur b rest hb ih =>
    intro hline hno
    rw [List.append_cons] at hno ⊢
    rw [split_of_ne hb]
    exact ih (hline.concat hb) hno

/-- Behind a line a stray line is handed on. -/
theorem stray_line {cur gap rest : Bytes} {c : UInt8} (hline : IsLine cur) (hgap : Gap gap c)
    (ih : IsLine [c] → HasStray ([c] ++ rest) →
      ∃ x ∈ (split [c] rest).1, x.head? ≠ some dollar)
    (hstray : HasStray (cur ++ cr :: (gap ++ c :: rest))) :
    ∃ x ∈ (split [c] rest).1, x.head? ≠ some dollar := by
  rw [hasStray_line hline hgap] at hstray
  by_cases hc : c = dollar
  · rw [if_pos hc] at hstray
    exact ih (hc ▸ isLine_dollar) hstray
  · rw [if_neg hc] at hstray
    obtain ⟨w, v, rfl, hw⟩ := List.eq_append_cons_of_mem hstray
    refine ⟨[c] ++ w, mem_split hw v [c], ?_⟩
    simpa using hc

/-- A call on bytes with a stray line hands on a string that is no sentence. -/
theorem split_stray (cur rest : Bytes) : IsLine cur → HasStray (cur ++ rest) →
    ∃ x ∈ (split cur rest).1, x.head? ≠ some dollar := by
  induction cur, rest using split.induct with
  | case1 cur =>
    intro hline hstray
    rw [List.append_nil] at hstray
    exact absurd hstray (not_hasStray_of_notMem hline.cr_notMem)
  | case2 cur =>
    intro hline hstray
    exact absurd (cr_mem_of_hasStray hline.cr_notMem hstray) (by simp)
  | case3 cur =>
    intro hline hstray
    exact absurd (cr_mem_of_hasStray hline.cr_notMem hstray) (by decide)
  | case4 cur d rest ih =>
    intro hline hstray
    obtain ⟨x, hx, hhead⟩ := stray_line hline (Or.inl rfl) ih hstray
    exact ⟨x, by rw [split_cr_lf]; exact List.mem_cons_of_mem cur hx, hhead⟩
  | case5 cur c rest hc ih =>
    intro hline hstray
    obtain ⟨x, hx, hhead⟩ := stray_line hline (Or.inr ⟨rfl, hc⟩) ih hstray
    exact ⟨x, by rw [split_cr hc]; exact List.mem_cons_of_mem cur hx, hhead⟩
  | case6 cur b rest hb ih =>
    intro hline hstray
    rw [List.append_cons] at hstray
    rw [split_of_ne hb]
    exact ih (hline.concat hb) hstray

/-! ### A whole call -/

theorem frame_junk {junk : Bytes} (h : dollar ∉ junk) (s : Bytes) :
    frame (junk ++ s) = frame s := by
  apply Prod.ext
  · rw [Framer.feed_append_fst, Framer.feed_hunt h]
  · rw [Framer.feed_append_snd, Framer.feed_hunt h]
    rfl

theorem hasStray_junk {junk : Bytes} (h : dollar ∉ junk) (s : Bytes) :
    HasStray (junk ++ s) ↔ HasStray s := by
  induction junk with
  | nil => rfl
  | cons b junk ih =>
    rw [List.mem_cons, not_or] at h
    rw [List.cons_append, hasStray_cons_of_ne (Ne.symm h.1), ih h.2]

theorem parse_frames {bytes : Bytes} (hno : ¬ HasStray bytes) :
    ∃ used, Frames bytes (parse bytes) used := by
  rcases parse_cases bytes with ⟨hdollar, hparse⟩ | ⟨junk, rest, hjunk, rfl, hparse⟩
  · rw [hparse]
    exact ⟨bytes, (List.append_nil bytes).symm, Framer.feed_hunt hdollar, rfl⟩
  · rw [hasStray_junk hjunk] at hno
    obtain ⟨used, hused⟩ := split_frames [dollar] rest isLine_dollar hno
    rw [hparse]
    refine ⟨junk ++ used, ?_, ?_, hused.left⟩
    · rw [List.append_assoc, ← hused.parts]
      rfl
    · rw [frame_junk hjunk, hused.packets]

theorem parse_stray {bytes : Bytes} (hstray : HasStray bytes) :
    ∃ x ∈ (parse bytes).1, x.head? ≠ some dollar := by
  rcases parse_cases bytes with ⟨hdollar, hparse⟩ | ⟨junk, rest, hjunk, rfl, hparse⟩
  · rw [← List.append_nil bytes, hasStray_junk hdollar] at hstray
    exact absurd hstray (not_hasStray_of_notMem (by simp))
  · rw [hasStray_junk hjunk] at hstray
    rw [hparse]
    exact split_stray [dollar] rest isLine_dollar hstray

/-- What a call leaves: nothing, or a byte and then no `'\r'`. -/
def Leftover (left : Bytes) : Prop := left = [] ∨ ∃ c q, left = c :: q ∧ cr ∉ q

theorem split_left (cur rest : Bytes) : Leftover cur →
    Leftover (split cur rest).2 ∧ (split cur rest).2 <:+ cur ++ rest := by
  have hbyte (c : UInt8) : Leftover [c] := Or.inr ⟨c, [], rfl, by simp⟩
  induction cur, rest using split.induct with
  | case1 cur =>
    intro hcur
    exact ⟨hcur, by simp [split]⟩
  | case2 cur => exact fun _ => ⟨Or.inl rfl, List.nil_suffix⟩
  | case3 cur => exact fun _ => ⟨Or.inl rfl, List.nil_suffix⟩
  | case4 cur d rest ih =>
    intro _
    obtain ⟨hleft, hsuffix⟩ := ih (hbyte d)
    rw [split_cr_lf]
    exact ⟨hleft, hsuffix.trans ⟨cur ++ [cr, lf], by simp⟩⟩
  | case5 cur c rest hc ih =>
    intro _
    obtain ⟨hleft, hsuffix⟩ := ih (hbyte c)
    rw [split_cr hc]
    exact ⟨hleft, hsuffix.trans ⟨cur ++ [cr], by simp⟩⟩
  | case6 cur b rest hb ih =>
    intro hcur
    have hgrow : Leftover (cur ++ [b]) := by
      rcases hcur with rfl | ⟨c, q, rfl, hq⟩
      · exact hbyte b
      · refine Or.inr ⟨c, q ++ [b], rfl, ?_⟩
        rw [List.mem_append, List.mem_singleton]
        exact not_or.2 ⟨hq, Ne.symm hb⟩
    rw [split_of_ne hb, List.append_cons cur b rest]
    exact ih hgrow

theorem parse_left (bytes : Bytes) :
    Leftover (parse bytes).2 ∧ (parse bytes).2 <:+ fromDollar bytes := by
  rcases parse_cases bytes with ⟨hdollar, hparse⟩ | ⟨junk, rest, hjunk, rfl, hparse⟩
  · rw [hparse]
    exact ⟨Or.inl rfl, List.nil_suffix⟩
  · rw [hparse, fromDollar_append hjunk]
    exact split_left [dollar] rest (Or.inr ⟨dollar, [], rfl, by simp⟩)

end ReadGps
end CFunction
