import CFunction.Lte.AtUart
import CFunction.Lte.Proofs.MuartReads
import CFunction.Lte.Proofs.MuartWrites
import CFunction.Lte.Proofs.SendAtCmd

/-!
# A complete exchange

`send_at_cmd` takes a negative result of `muart_write` for a failure, and a short count for a
success; and it searches a reply of 64 bytes before it puts a NUL into it.
-/

namespace CFunction
namespace Mat

open CString Transfer Muart ReadGps

/-- What a successful call promises: the command has been sent, the expected text has been
received, and the text in `msg` is what has been received, or the beginning of it. -/
structure CompleteExchange (atCmd expect : Bytes) (msgSize : Int) (offers : List (Offer UInt8))
    (fetches : List (Fetch UInt8)) (result : Option (Int × Option Bytes)) : Prop where
  /-- No search leaves the buffer. -/
  within : result ≠ none
  sent : ∀ msg, result = some (0, msg) → accepted offers = atCmd ∧ expect <:+: received fetches
  copied : ∀ msg, result = some (0, some msg) → AT_MAX_LEN ≤ msgSize →
    ∃ s, Contains msg s ∧ s <+: received fetches

/-- A write fails before anything has been accepted. -/
def NothingSent (offers : List (Offer UInt8)) : Prop :=
  accepted offers = [] ∧ ∃ o ∈ offers, o.taken = none

/-- A write fails behind bytes that have been accepted. -/
def BrokenOff (offers : List (Offer UInt8)) : Prop :=
  accepted offers ≠ [] ∧ ∃ o ∈ offers, o.taken = none

/-- Nothing is written or nothing is read; or the reply leaves a NUL in the buffer or holds the
expected text, and a command that breaks off is not answered with the expected text. -/
def Undisturbed (expect : Bytes) (offers : List (Offer UInt8)) (fetches : List (Fetch UInt8)) :
    Prop :=
  NothingSent offers ∨ received fetches = [] ∨
    ((Terminated (received fetches) ∨ (strstr expect (textOf (received fetches))).isSome) ∧
      (BrokenOff offers → strstr expect (textOf (received fetches)) = none))

section Exchange

variable {m : Muart} {fuel timeout : Nat} {atCmd expect : Bytes} {e : Exchange}
  {offers : List (Offer UInt8)} {fetches : List (Fetch UInt8)}

/-! ### The two calls -/

/-- What an exchange tells of the command. -/
structure Written (atCmd : Bytes) (written : Int) (offers : List (Offer UInt8)) : Prop where
  unsent_iff : written < 0 ↔ NothingSent offers
  whole_iff : ¬ NothingSent offers → (accepted offers = atCmd ↔ ¬ BrokenOff offers)

theorem SendsPrefix.written {written : Int} (h : SendsPrefix m atCmd written offers) :
    Written atCmd written offers := by
  have hunsent : written < 0 ↔ NothingSent offers := by
    constructor
    · intro hneg
      have hret : written = -1 := by
        by_contra hne
        have hcount := h.counts hne
        omega
      obtain ⟨past, o, rest, hsplit, ho, -⟩ := h.fails.1 hret
      refine ⟨h.nothing hret, o, ?_, ho⟩
      rw [hsplit]
      exact List.mem_append_right past List.mem_cons_self
    · rintro ⟨hnil, o, hmem, ho⟩
      obtain ⟨past, rest, hsplit⟩ := List.append_of_mem hmem
      rw [hsplit, accepted_append, List.append_eq_nil_iff] at hnil
      rw [h.fails.2 ⟨past, o, rest, hsplit, ho, hnil.1⟩]
      decide
  refine ⟨hunsent, fun hsome => ?_⟩
  constructor
  · rintro hall ⟨-, hfail⟩
    exact h.stops.2 hfail hall
  · intro hwhole
    by_contra hpart
    have hfail := h.stops.1 hpart
    by_cases hnil : accepted offers = []
    · exact hsome ⟨hnil, hfail⟩
    · exact hwhole ⟨hnil, hfail⟩

/-- An empty command is written once. -/
theorem written_empty {written : Int} (hmax : 1 ≤ m.writeMaxBytesOnce)
    (hrun : muartWrite m fuel [] = some (written, offers)) : Written [] written offers := by
  have hzero : nwrite m 0 = 0 := if_neg (by omega)
  cases fuel with
  | zero => cases hrun
  | succ fuel =>
    rw [muartWrite, writeLoop_succ] at hrun
    simp only [List.length_nil, Int.natCast_zero, nextOffer, hzero, List.drop_nil,
      List.take_nil] at hrun
    cases htaken : m.fd.write 0 (Int.toNat 0) with
    | none =>
      rw [htaken] at hrun
      injection hrun with hpair
      injection hpair with hret hoffers
      have hnothing : NothingSent offers := by
        rw [← hoffers]
        exact ⟨rfl, _, List.mem_singleton_self _, rfl⟩
      refine ⟨⟨fun _ => hnothing, fun _ => ?_⟩, fun hsome => absurd hnothing hsome⟩
      rw [← hret]
      decide
    | some n =>
      rw [htaken] at hrun
      have hdone : ¬ (0 : Int) - n > 0 := by omega
      simp only [if_neg hdone] at hrun
      injection hrun with hpair
      injection hpair with hret hoffers
      have hunfailed : ¬ ∃ o ∈ offers, o.taken = none := by
        rintro ⟨o, hmem, ho⟩
        rw [← hoffers, List.nil_append] at hmem
        rw [List.mem_singleton.1 hmem] at ho
        cases ho
      have hnil : accepted offers = [] := by
        rw [← hoffers]
        simp [accepted, Offer.accepted]
      refine ⟨⟨fun hneg => ?_, fun h => absurd h.2 hunfailed⟩,
        fun _ => ⟨fun _ h => hunfailed h.2, fun _ => hnil⟩⟩
      omega

theorem muartWrite_written {written : Int} (hmax : 1 ≤ m.writeMaxBytesOnce)
    (hrun : muartWrite m fuel atCmd = some (written, offers)) : Written atCmd written offers := by
  by_cases hne : atCmd = []
  · subst hne
    exact written_empty hmax hrun
  · exact SendsPrefix.written (writeLoop_sendsPrefix hmax _ _ _ _ _ _ (.start m hne) hrun)

/-- What an exchange tells of the command and of the reply. -/
structure Exchanged (atCmd : Bytes) (e : Exchange) (offers : List (Offer UInt8))
    (fetches : List (Fetch UInt8)) : Prop where
  written : Written atCmd e.written offers
  reply : e.reply = some (received fetches) ∨ e.reply = none ∧ received fetches = []
  length_le : (received fetches).length ≤ AT_MAX_LEN

theorem exchange_spec (hmax : 1 ≤ m.writeMaxBytesOnce)
    (hrun : exchange m fuel timeout atCmd = some (e, offers, fetches)) :
    Exchanged atCmd e offers fetches := by
  rw [exchange] at hrun
  obtain ⟨⟨written, offers'⟩, hwrite, hrun⟩ := Option.bind_eq_some_iff.1 hrun
  obtain ⟨nread, buf, fetches', hread, hgathers⟩ := @muartReadNbytes_gathers m timeout
    (List.replicate AT_MAX_LEN 0) AT_MAX_LEN (Nat.le_of_eq List.length_replicate.symm)
  dsimp only at hrun
  rw [hread] at hrun
  injection hrun with hpair
  injection hpair with he hpair
  injection hpair with hoffers hfetches
  subst he hoffers hfetches
  refine ⟨muartWrite_written hmax hwrite, ?_, hgathers.length_le⟩
  by_cases hfail : nread = -1
  · refine .inr ⟨?_, hgathers.nothing hfail⟩
    rw [hfail]
    rfl
  · have hcount := hgathers.counts hfail
    have hneg : ¬ nread < 0 := by omega
    refine .inl ?_
    rw [if_neg hneg, hcount, Int.toNat_natCast, hgathers.buffer, List.take_left]

/-! ### The call -/

/-- A call that fails promises nothing. -/
theorem complete_of_failed {msg : Option Bytes} {msgSize : Int}
    {result : Option (Int × Option Bytes)} (hresult : result = some (-1, msg)) :
    CompleteExchange atCmd expect msgSize offers fetches result := by
  have hcode : ∀ msg', result ≠ some (0, msg') := by
    intro msg' h
    rw [hresult] at h
    injection h with h
    injection h with hcode
    exact absurd hcode (by decide)
  refine ⟨?_, fun msg' h => absurd h (hcode msg'), fun msg' h => absurd h (hcode (some msg'))⟩
  rw [hresult]
  exact Option.some_ne_none _

/-- A call that finds the expected text and copies `s` is complete if all of the command has been
sent. -/
theorem complete_of_found {msg : Option Bytes} {msgSize : Int} {s : Bytes}
    {result : Option (Int × Option Bytes)} (hroom : ∀ b, msg = some b → msgSize ≤ b.length)
    (hpre : s <+: received fetches) (hne : 0 ∉ s) (hlen : s.length ≤ 63)
    (hfound : (strstr expect (textOf (received fetches))).isSome)
    (hresult : result = (copyMsg s msgSize msg).map fun msg => (0, msg)) :
    CompleteExchange atCmd expect msgSize offers fetches result ↔ accepted offers = atCmd := by
  obtain ⟨msg', hcopy⟩ := Option.isSome_iff_exists.1 (@copyMsg_isSome msg msgSize s hroom)
  rw [hcopy, Option.map_some] at hresult
  constructor
  · exact fun h => (h.sent msg' hresult).1
  · intro hall
    have hexpect := (strstr_isSome_iff.1 hfound).trans (textOf_isPrefix _).isInfix
    refine ⟨by rw [hresult]; exact Option.some_ne_none _, fun _ _ => ⟨hall, hexpect⟩, ?_⟩
    intro b' hb' hsize
    rw [hresult] at hb'
    injection hb' with hb'
    injection hb' with _ hmsg
    cases msg with
    | none =>
      injection hcopy with hcopy
      rw [← hcopy] at hmsg
      cases hmsg
    | some b =>
      obtain ⟨copied, hcopied, hstring, -⟩ :=
        contains_copyMsg hne hlen hsize (hroom b rfl)
      rw [hcopied, hmsg] at hcopy
      injection hcopy with hcopy
      injection hcopy with hcopy
      exact ⟨_, hcopy ▸ hstring, hpre⟩

/-- When the expected text is received, only a command that breaks off disturbs. -/
theorem undisturbed_of_found (hsome : ¬ NothingSent offers) (hnil : received fetches ≠ [])
    (hfound : (strstr expect (textOf (received fetches))).isSome) :
    Undisturbed expect offers fetches ↔ ¬ BrokenOff offers := by
  constructor
  · rintro (hnothing | hsilent | ⟨-, hunanswered⟩) hbroken
    · exact hsome hnothing
    · exact hnil hsilent
    · rw [hunanswered hbroken] at hfound
      cases hfound
  · exact fun hwhole => .inr (.inr ⟨.inr hfound, fun hbroken => absurd hbroken hwhole⟩)

/-- A call is complete exactly when nothing disturbs it. -/
theorem exchange_complete_iff {msg : Option Bytes} {msgSize : Int}
    (hmax : 1 ≤ m.writeMaxBytesOnce) (hroom : ∀ b, msg = some b → msgSize ≤ b.length)
    (hrun : exchange m fuel timeout atCmd = some (e, offers, fetches)) :
    CompleteExchange atCmd expect msgSize offers fetches
      (sendAtCmd (fun _ => e) atCmd expect msg msgSize) ↔ Undisturbed expect offers fetches := by
  obtain ⟨⟨hunsent, hwhole⟩, hreply, hlen⟩ := exchange_spec hmax hrun
  by_cases hneg : e.written < 0
  · exact ⟨fun _ => .inl (hunsent.1 hneg), fun _ => complete_of_failed (sendAtCmd_unsent hneg)⟩
  have hsome : ¬ NothingSent offers := fun h => hneg (hunsent.2 h)
  by_cases hnil : received fetches = []
  · have hsilent : e.reply = none ∨ e.reply = some [] := by
      rcases hreply with hreply | hreply
      · exact .inr (hnil ▸ hreply)
      · exact .inl hreply.1
    exact ⟨fun _ => .inr (.inl hnil),
      fun _ => complete_of_failed (sendAtCmd_unanswered hneg hsilent)⟩
  have hreply' : e.reply = some (received fetches) :=
    hreply.resolve_right fun h => hnil h.2
  by_cases hterm : Terminated (received fetches)
  · have hanswer := @sendAtCmd_answered (fun _ => e) atCmd expect (received fetches) msg msgSize
      hneg hreply' hnil hlen hterm
    cases hfound : (strstr expect (textOf (received fetches))).isNone with
    | true =>
      rw [hfound, if_pos rfl] at hanswer
      refine ⟨fun _ => .inr (.inr ⟨.inl hterm, fun _ => ?_⟩), fun _ => complete_of_failed hanswer⟩
      exact Option.isNone_iff_eq_none.1 hfound
    | false =>
      rw [hfound, if_neg Bool.false_ne_true] at hanswer
      have hsearch := Option.isNone_eq_false_iff.1 hfound
      rw [complete_of_found hroom (textOf_isPrefix _) (zero_notMem_textOf _)
        (hterm.textOf_length hlen) hsearch hanswer, hwhole hsome,
        undisturbed_of_found hsome hnil hsearch]
  · have hfull := fills_of_not_terminated hterm hlen
    have htext := textOf_of_notMem hfull.no_nul
    by_cases hfound : (strstr expect (textOf (received fetches))).isSome
    · have hanswer := @sendAtCmd_filled (fun _ => e) atCmd expect (received fetches) msg msgSize
        hneg hreply' hfull (htext ▸ hfound)
      have hshort : ((received fetches).take 63).length ≤ 63 := List.length_take_le _ _
      rw [complete_of_found hroom (List.take_prefix _ _)
        (fun hmem => hfull.no_nul (List.mem_of_mem_take hmem)) hshort hfound hanswer, hwhole hsome,
        undisturbed_of_found hsome hnil hfound]
    · have hmissing : strstr expect (received fetches) = none := by
        rw [← htext]
        exact Option.not_isSome_iff_eq_none.1 hfound
      have hnone := @sendAtCmd_overrun (fun _ => e) atCmd expect (received fetches) msg msgSize
        hneg hreply' hfull hmissing
      constructor
      · exact fun h => absurd hnone h.within
      · rintro (hnothing | hsilent | ⟨hends, -⟩)
        · exact absurd hnothing hsome
        · exact absurd hsilent hnil
        · exact absurd hends (not_or.2 ⟨hterm, hfound⟩)

end Exchange

/-- Takes one byte and fails, and answers anyway. -/
def oneByte : Tty where
  write k size := if k = 0 then some (min 1 size) else none
  select _ := 1
  read k nbytes := if k = 0 then some ((text "\r\nOK\r\n").take nbytes) else none
  write_le k size n h := by
    by_cases hk : k = 0
    · rw [if_pos hk] at h
      rw [← Option.some.inj h]
      exact Nat.min_le_right 1 size
    · rw [if_neg hk] at h
      cases h
  read_le k nbytes chunk h := by
    by_cases hk : k = 0
    · rw [if_pos hk] at h
      rw [← Option.some.inj h]
      exact List.length_take_le nbytes _
    · rw [if_neg hk] at h
      cases h

theorem exchange_complete_iff_two : ∃ e offers fetches,
    exchange ⟨twoBytes, 128⟩ 1 1 (text "AT\r") = some (e, offers, fetches) ∧
      (CompleteExchange (text "AT\r") (text "OK") 0 offers fetches
        (sendAtCmd (fun _ => e) (text "AT\r") (text "OK") none 0) ↔
          Undisturbed (text "OK") offers fetches) := by
  have hrun : exchange ⟨twoBytes, 128⟩ 1 1 (text "AT\r") =
      some (⟨3, some (text "OK")⟩, [⟨text "AT\r", some 3⟩],
        [⟨64, some (text "OK")⟩, ⟨62, none⟩]) := by decide
  exact ⟨_, _, _, hrun, exchange_complete_iff (by decide) (fun _ h => by cases h) hrun⟩

/-- The second write of `AT\r` fails, and the call returns 0. -/
theorem exchange_one_byte : ∃ e offers fetches,
    exchange ⟨oneByte, 128⟩ 2 1 (text "AT\r") = some (e, offers, fetches) ∧
      sendAtCmd (fun _ => e) (text "AT\r") (text "OK") none 0 = some (0, none) ∧
      ¬ accepted offers = text "AT\r" := by
  have hrun : exchange ⟨oneByte, 128⟩ 2 1 (text "AT\r") =
      some (⟨1, some (text "\r\nOK\r\n")⟩, [⟨text "AT\r", some 1⟩, ⟨text "T\r", none⟩],
        [⟨64, some (text "\r\nOK\r\n")⟩, ⟨58, none⟩]) := by decide
  exact ⟨_, _, _, hrun, by decide, by decide⟩

end Mat
end CFunction
