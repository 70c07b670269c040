import CFunction.Lte.Muart

/-!
# What `muart_write` sends

Every `write` continues where the accepted bytes end, so what has been accepted is the beginning
of the buffer, and the result tells how much of it.
-/

namespace CFunction
namespace Muart

open CString Transfer

/-- What the writes of a call did, and what it returned. -/
structure SendsPrefix (m : Muart) (buf : Bytes) (ret : Int) (offers : List (Offer UInt8)) :
    Prop where
  /-- The calls are those of the descriptor. -/
  outcomes : Throughout (fun past o => o.taken = m.fd.write past.length o.data.length) offers
  bounded : ∀ o ∈ offers, (o.data.length : Int) ≤ m.writeMaxBytesOnce
  accepted_eq : accepted offers = buf.take (accepted offers).length
  fails : ret = -1 ↔
    ∃ past o rest, offers = past ++ o :: rest ∧ o.taken = none ∧ accepted past = []
  nothing : ret = -1 → accepted offers = []
  counts : ret ≠ -1 → ret = (accepted offers).length
  whole : ret = buf.length ↔ accepted offers = buf
  /-- Only an error stops the call early. -/
  stops : accepted offers ≠ buf ↔ ∃ o ∈ offers, o.taken = none

section Loop

variable {m : Muart} {buf : Bytes} {nleft npos : Int} {offers : List (Offer UInt8)}

/-- The loop in front of a call: no call has failed so far, and bytes are left. -/
structure Sending (m : Muart) (buf : Bytes) (nleft npos : Int) (offers : List (Offer UInt8)) :
    Prop where
  outcomes : Throughout (fun past o => o.taken = m.fd.write past.length o.data.length) offers
  bounded : ∀ o ∈ offers, (o.data.length : Int) ≤ m.writeMaxBytesOnce
  order : InOrder buf offers
  unfailed : ∀ o ∈ offers, o.taken ≠ none
  npos_eq : npos = (accepted offers).length
  left_eq : nleft + npos = buf.length
  pos : 0 < nleft

theorem Sending.start (m : Muart) {buf : Bytes} (hne : buf ≠ []) :
    Sending m buf buf.length 0 [] := by
  refine ⟨throughout_nil, fun o ho => absurd ho List.not_mem_nil, throughout_nil,
    fun o ho => absurd ho List.not_mem_nil, rfl, Int.add_zero _, ?_⟩
  exact Int.natCast_pos.2 (List.length_pos_iff.2 hne)

/-- `nwrite`. -/
def nwrite (m : Muart) (nleft : Int) : Int :=
  if nleft > m.writeMaxBytesOnce then m.writeMaxBytesOnce else nleft

/-- The call that comes next. -/
def nextOffer (m : Muart) (buf : Bytes) (nleft npos : Int) (k : Nat) : Offer UInt8 :=
  ⟨(buf.drop npos.toNat).take (nwrite m nleft).toNat, m.fd.write k (nwrite m nleft).toNat⟩

/-- A round of the loop. -/
theorem writeLoop_succ (m : Muart) (buf : Bytes) (nbytes : Int) (fuel : Nat) (nleft npos : Int)
    (offers : List (Offer UInt8)) : writeLoop m buf nbytes (fuel + 1) nleft npos offers =
      match (nextOffer m buf nleft npos offers.length).taken with
      | none => some (if nleft = nbytes then -1 else npos,
          offers ++ [nextOffer m buf nleft npos offers.length])
      | some n =>
        if nleft - n > 0 then writeLoop m buf nbytes fuel (nleft - n) (npos + n)
          (offers ++ [nextOffer m buf nleft npos offers.length])
        else some (npos + n, offers ++ [nextOffer m buf nleft npos offers.length]) := by
  rw [writeLoop]
  simp only [nextOffer, nwrite]
  cases m.fd.write offers.length
      (if nleft > m.writeMaxBytesOnce then m.writeMaxBytesOnce else nleft).toNat with
  | none =>
    by_cases hall : nleft = nbytes
    · simp only [if_pos hall]
    · simp only [if_neg hall]
  | some n => rfl

theorem nwrite_le (m : Muart) (nleft : Int) :
    nwrite m nleft ≤ nleft ∧ nwrite m nleft ≤ m.writeMaxBytesOnce := by
  rw [nwrite]
  split
  · omega
  · omega

theorem Sending.data_length (h : Sending m buf nleft npos offers) :
    (nextOffer m buf nleft npos offers.length).data.length = (nwrite m nleft).toNat := by
  have hle := (nwrite_le m nleft).1
  have hleft := h.left_eq
  have hnpos := h.npos_eq
  rw [nextOffer, List.length_take, List.length_drop]
  omega

/-- The call that comes next is one of the descriptor, is not too long, and goes on where the
accepted bytes end. -/
theorem Sending.call (h : Sending m buf nleft npos offers) (hmax : 1 ≤ m.writeMaxBytesOnce) :
    Throughout (fun past o => o.taken = m.fd.write past.length o.data.length)
        (offers ++ [nextOffer m buf nleft npos offers.length]) ∧
      (∀ o ∈ offers ++ [nextOffer m buf nleft npos offers.length],
        (o.data.length : Int) ≤ m.writeMaxBytesOnce) ∧
      InOrder buf (offers ++ [nextOffer m buf nleft npos offers.length]) := by
  have hlen := h.data_length
  refine ⟨(throughout_concat_iff _ _).2 ⟨h.outcomes, ?_⟩, ?_,
    (throughout_concat_iff _ _).2 ⟨h.order, ?_⟩⟩
  · rw [hlen]
    rfl
  · intro o ho
    rcases List.mem_append.1 ho with ho | ho
    · exact h.bounded o ho
    · have hle := (nwrite_le m nleft).2
      rw [List.mem_singleton.1 ho, hlen]
      omega
  · rw [nextOffer, h.npos_eq, Int.toNat_natCast]
    exact List.take_prefix _ _

/-- What is accepted of it. -/
theorem Sending.accepted_length (h : Sending m buf nleft npos offers) :
    (nextOffer m buf nleft npos offers.length).accepted.length =
      (nextOffer m buf nleft npos offers.length).taken.getD 0 := by
  have hlen := h.data_length
  rw [Offer.accepted, List.length_take, hlen]
  apply Nat.min_eq_left
  cases hret : (nextOffer m buf nleft npos offers.length).taken with
  | none => exact Nat.zero_le _
  | some n => exact m.fd.write_le _ _ n hret

theorem accepted_eq_take {buf : Bytes} {offers : List (Offer UInt8)} (h : InOrder buf offers) :
    accepted offers = buf.take (accepted offers).length :=
  List.prefix_iff_eq_take.1 h.accepted_isPrefix

/-- A call that fails. The result says whether anything was accepted in front of it. -/
theorem Sending.failed (h : Sending m buf nleft npos offers) (hmax : 1 ≤ m.writeMaxBytesOnce)
    (hnone : (nextOffer m buf nleft npos offers.length).taken = none) :
    SendsPrefix m buf (if nleft = buf.length then -1 else npos)
      (offers ++ [nextOffer m buf nleft npos offers.length]) := by
  obtain ⟨houtcomes, hbounded, horder⟩ := h.call hmax
  have hsame : accepted (offers ++ [nextOffer m buf nleft npos offers.length]) =
      accepted offers := by
    rw [accepted_concat, Offer.accepted, hnone]
    exact List.append_nil _
  have hnpos := h.npos_eq
  have hleft := h.left_eq
  have hpos := h.pos
  have hpart : accepted offers ≠ buf := by
    intro hall
    rw [hall] at hnpos
    omega
  have hstops : accepted (offers ++ [nextOffer m buf nleft npos offers.length]) ≠ buf ↔
      ∃ o ∈ offers ++ [nextOffer m buf nleft npos offers.length], o.taken = none := by
    rw [hsame]
    exact ⟨fun _ => ⟨_, List.mem_append_right offers (List.mem_singleton_self _), hnone⟩,
      fun _ => hpart⟩
  by_cases hall : nleft = buf.length
  · have hnil : accepted offers = [] := List.eq_nil_of_length_eq_zero (by omega)
    rw [if_pos hall]
    refine ⟨houtcomes, hbounded, accepted_eq_take horder, ⟨fun _ => ?_, fun _ => rfl⟩,
      fun _ => hsame.trans hnil, fun hne => absurd rfl hne, ?_, hstops⟩
    · exact ⟨offers, _, [], rfl, hnone, hnil⟩
    · rw [hsame]
      exact ⟨fun hret => by omega, fun heq => absurd heq hpart⟩
  · rw [if_neg hall]
    refine ⟨houtcomes, hbounded, accepted_eq_take horder, ?_, fun hneg => by omega,
      fun _ => by rw [hsame, hnpos], ?_, hstops⟩
    · constructor
      · intro hret
        omega
      · rintro ⟨past, o, rest, hsplit, ho, hnil⟩
        -- the call that failed is the last one
        rcases List.eq_nil_or_concat rest with rfl | ⟨rest', last, rfl⟩
        · obtain ⟨rfl, -⟩ := List.append_singleton_inj.1 hsplit
          rw [hnil, List.length_nil] at hnpos
          omega
        · rw [List.concat_eq_append, ← List.cons_append, ← List.append_assoc] at hsplit
          obtain ⟨rfl, -⟩ := List.append_singleton_inj.1 hsplit
          exact absurd ho (h.unfailed o (List.mem_append_right past List.mem_cons_self))
    · rw [hsame]
      exact ⟨fun hret => by omega, fun heq => absurd heq hpart⟩

/-- A call that leaves nothing. -/
theorem Sending.finished (h : Sending m buf nleft npos offers) (hmax : 1 ≤ m.writeMaxBytesOnce)
    {n : Nat} (hsome : (nextOffer m buf nleft npos offers.length).taken = some n)
    (hdone : ¬ nleft - n > 0) :
    SendsPrefix m buf (npos + n) (offers ++ [nextOffer m buf nleft npos offers.length]) := by
  obtain ⟨houtcomes, hbounded, horder⟩ := h.call hmax
  have hle := (nwrite_le m nleft).1
  have hn := m.fd.write_le _ _ n hsome
  have hnpos := h.npos_eq
  have hleft := h.left_eq
  have hpos := h.pos
  have hcount := h.accepted_length
  rw [hsome, Option.getD_some] at hcount
  have hlen : (accepted (offers ++ [nextOffer m buf nleft npos offers.length])).length =
      buf.length := by
    rw [accepted_concat, List.length_append, hcount]
    omega
  have hall : accepted (offers ++ [nextOffer m buf nleft npos offers.length]) = buf :=
    horder.accepted_isPrefix.eq_of_length hlen
  have hunfailed : ∀ o ∈ offers ++ [nextOffer m buf nleft npos offers.length], o.taken ≠ none := by
    intro o ho
    rcases List.mem_append.1 ho with ho | ho
    · exact h.unfailed o ho
    · rw [List.mem_singleton.1 ho, hsome]
      exact Option.some_ne_none n
  refine ⟨houtcomes, hbounded, accepted_eq_take horder, ?_, fun hneg => by omega,
    fun _ => by rw [hlen]; omega, ⟨fun _ => hall, fun _ => by omega⟩, ?_⟩
  · constructor
    · intro hret
      omega
    · rintro ⟨past, o, rest, hsplit, ho, -⟩
      refine absurd ho (hunfailed o ?_)
      rw [hsplit]
      exact List.mem_append_right past List.mem_cons_self
  · constructor
    · exact fun hpart => absurd hall hpart
    · rintro ⟨o, hmem, ho⟩
      exact absurd ho (hunfailed o hmem)

/-- A call that leaves bytes. -/
theorem Sending.next (h : Sending m buf nleft npos offers) (hmax : 1 ≤ m.writeMaxBytesOnce)
    {n : Nat} (hsome : (nextOffer m buf nleft npos offers.length).taken = some n)
    (hmore : nleft - n > 0) : Sending m buf (nleft - n) (npos + n)
      (offers ++ [nextOffer m buf nleft npos offers.length]) := by
  obtain ⟨houtcomes, hbounded, horder⟩ := h.call hmax
  have hleft := h.left_eq
  have hcount := h.accepted_length
  rw [hsome, Option.getD_some] at hcount
  refine ⟨houtcomes, hbounded, horder, fun o ho => ?_, ?_, by omega, hmore⟩
  · rcases List.mem_append.1 ho with ho | ho
    · exact h.unfailed o ho
    · rw [List.mem_singleton.1 ho, hsome]
      exact Option.some_ne_none n
  · rw [accepted_concat, List.length_append, hcount, h.npos_eq]
    exact (Int.natCast_add _ _).symm

theorem writeLoop_sendsPrefix (hmax : 1 ≤ m.writeMaxBytesOnce) : ∀ (fuel : Nat)
    (nleft npos : Int) (offers : List (Offer UInt8)) (ret : Int) (offers' : List (Offer UInt8)),
    Sending m buf nleft npos offers →
    writeLoop m buf buf.length fuel nleft npos offers = some (ret, offers') →
    SendsPrefix m buf ret offers' := by
  intro fuel
  induction fuel with
  | zero => exact fun _ _ _ _ _ _ hrun => by cases hrun
  | succ fuel ih =>
    intro nleft npos offers ret offers' h hrun
    rw [writeLoop_succ] at hrun
    cases htaken : (nextOffer m buf nleft npos offers.length).taken with
    | none =>
      rw [htaken] at hrun
      injection hrun with hpair
      injection hpair with hret hoffers
      rw [← hret, ← hoffers]
      exact h.failed hmax htaken
    | some n =>
      rw [htaken] at hrun
      dsimp only at hrun
      by_cases hmore : nleft - n > 0
      · rw [if_pos hmore] at hrun
        exact ih _ _ _ _ _ (h.next hmax htaken hmore) hrun
      · rw [if_neg hmore] at hrun
        injection hrun with hpair
        injection hpair with hret hoffers
        rw [← hret, ← hoffers]
        exact h.finished hmax htaken hmore

end Loop

/-- A call that returns has sent the beginning of the buffer, and tells how much. -/
theorem muartWrite_sendsPrefix {m : Muart} {fuel : Nat} {buf : Bytes} {ret : Int}
    {offers : List (Offer UInt8)} (hne : buf ≠ []) (hmax : 1 ≤ m.writeMaxBytesOnce)
    (hrun : muartWrite m fuel buf = some (ret, offers)) : SendsPrefix m buf ret offers :=
  writeLoop_sendsPrefix hmax _ _ _ _ _ _ (.start m hne) hrun

/-! ### How many rounds are enough -/

section Enough

variable {m : Muart} {buf : Bytes} {nleft npos : Int} {offers : List (Offer UInt8)}

/-- The first `k` calls of a loop that nothing ends. -/
def calls (m : Muart) (buf : Bytes) : Nat → List (Offer UInt8)
  | 0 => []
  | k + 1 =>
    let npos := (accepted (calls m buf k)).length
    calls m buf k ++ [nextOffer m buf (buf.length - npos) npos k]

theorem calls_length (m : Muart) (buf : Bytes) (k : Nat) : (calls m buf k).length = k := by
  induction k with
  | zero => rfl
  | succ k ih => rw [calls, List.length_append, ih, List.length_singleton]

/-- What ends the loop within its first `k` rounds: a call that fails, or counts that add up to the
whole of the buffer. -/
def Ends (m : Muart) (buf : Bytes) (k : Nat) : Prop :=
  (∃ o ∈ calls m buf k, o.taken = none) ∨ buf.length ≤ (accepted (calls m buf k)).length

theorem Ends.succ {k : Nat} (h : Ends m buf k) : Ends m buf (k + 1) := by
  rcases h with ⟨o, ho, hnone⟩ | hall
  · exact .inl ⟨o, List.mem_append_left _ ho, hnone⟩
  · refine .inr (Nat.le_trans hall ?_)
    rw [calls, accepted_concat, List.length_append]
    exact Nat.le_add_right _ _

theorem Ends.add {k : Nat} (h : Ends m buf k) (fuel : Nat) : Ends m buf (k + fuel) := by
  induction fuel with
  | zero => exact h
  | succ fuel ih => exact ih.succ

/-- A loop that goes on has made just the calls that nothing ends. -/
theorem Sending.calls_succ (h : Sending m buf nleft npos offers)
    (hcalls : offers = calls m buf offers.length) :
    offers ++ [nextOffer m buf nleft npos offers.length] =
      calls m buf (offers.length + 1) := by
  have hnpos := h.npos_eq
  have hleft : nleft = buf.length - npos := by
    have := h.left_eq
    omega
  rw [calls, ← hcalls, ← hnpos, ← hleft]

theorem Sending.not_ends (h : Sending m buf nleft npos offers)
    (hcalls : offers = calls m buf offers.length) : ¬ Ends m buf offers.length := by
  rw [Ends, ← hcalls]
  rintro (⟨o, ho, hnone⟩ | hall)
  · exact h.unfailed o ho hnone
  · have hnpos := h.npos_eq
    have hleft := h.left_eq
    have hpos := h.pos
    omega

theorem writeLoop_isSome_iff (hmax : 1 ≤ m.writeMaxBytesOnce) : ∀ (fuel : Nat) (nleft npos : Int)
    (offers : List (Offer UInt8)), Sending m buf nleft npos offers →
    offers = calls m buf offers.length →
    ((writeLoop m buf buf.length fuel nleft npos offers).isSome ↔
      Ends m buf (offers.length + fuel)) := by
  intro fuel
  induction fuel with
  | zero =>
    intro nleft npos offers h hcalls
    exact iff_of_false Bool.false_ne_true (h.not_ends hcalls)
  | succ fuel ih =>
    intro nleft npos offers h hcalls
    have hsucc := h.calls_succ hcalls
    have hfuel : offers.length + (fuel + 1) = offers.length + 1 + fuel := by omega
    rw [writeLoop_succ, hfuel]
    cases htaken : (nextOffer m buf nleft npos offers.length).taken with
    | none =>
      have hends : Ends m buf (offers.length + 1) := by
        refine .inl ⟨_, ?_, htaken⟩
        rw [← hsucc]
        exact List.mem_append_right offers (List.mem_singleton_self _)
      exact iff_of_true rfl (hends.add fuel)
    | some n =>
      dsimp only
      by_cases hmore : nleft - n > 0
      · have hlength : (offers ++ [nextOffer m buf nleft npos offers.length]).length =
            offers.length + 1 := by
          rw [hsucc, calls_length]
        have hstep := ih _ _ _ (h.next hmax htaken hmore) (by rw [hlength, hsucc])
        rw [if_pos hmore, hstep, hlength]
      · have hends : Ends m buf (offers.length + 1) := by
          refine .inr ?_
          have hfinished := h.finished hmax htaken hmore
          have hleft := h.left_eq
          have hn := hfinished.counts (by have := h.npos_eq; omega)
          rw [← hsucc]
          omega
        rw [if_neg hmore]
        exact iff_of_true rfl (hends.add fuel)

/-- The call returns within `fuel` rounds exactly when a write among the first `fuel` fails, or
their counts add up to the whole of the buffer. -/
theorem muartWrite_isSome_iff (hne : buf ≠ []) (hmax : 1 ≤ m.writeMaxBytesOnce) (fuel : Nat) :
    (muartWrite m fuel buf).isSome ↔ Ends m buf fuel := by
  have hloop := writeLoop_isSome_iff hmax fuel _ _ _ (.start m hne) rfl
  rwa [List.length_nil, Nat.zero_add] at hloop

end Enough

/-- Two bytes, none, and then an error. -/
def twoThenError : Tty where
  write k size := if k = 0 then some (min 2 size) else if k = 1 then some 0 else none
  select _ := 1
  read _ _ := some []
  write_le k size n h := by
    by_cases hk : k = 0
    · rw [if_pos hk] at h
      rw [← Option.some.inj h]
      exact Nat.min_le_right 2 size
    · rw [if_neg hk] at h
      by_cases hk : k = 1
      · rw [if_pos hk] at h
        rw [← Option.some.inj h]
        exact Nat.zero_le size
      · rw [if_neg hk] at h
        cases h
  read_le _ nbytes chunk h := by
    rw [← Option.some.inj h]
    exact Nat.zero_le nbytes

theorem muartWrite_sendsPrefix_two : SendsPrefix ⟨twoThenError, 3⟩ (text "AT+CSQ") 2
    [⟨text "AT+", some 2⟩, ⟨text "+CS", some 0⟩, ⟨text "+CS", none⟩] := by
  have hrun : muartWrite ⟨twoThenError, 3⟩ 3 (text "AT+CSQ") =
      some (2, [⟨text "AT+", some 2⟩, ⟨text "+CS", some 0⟩, ⟨text "+CS", none⟩]) := by decide
  exact muartWrite_sendsPrefix (by decide) (by decide) hrun

end Muart
end CFunction
