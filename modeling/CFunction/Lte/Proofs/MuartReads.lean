import CFunction.Lte.Muart

/-!
# What a timed read gathers

The loop that `dreadn` and `muart_read_nbytes` share, around any timed read that delivers no more
than it is offered: it ends, and the buffer begins with what the calls have delivered.
-/

namespace CFunction

open CString Transfer

namespace ReadGps

/-- What the loop leaves, with the number `ret` that it returns. -/
structure Gathers (timed : Nat → Nat → Option Bytes) (nbytes : Nat) (buf₀ buf : Bytes) (ret : Int)
    (fetches : List (Fetch UInt8)) : Prop where
  /-- The calls are those of the timed read. -/
  outcomes : Throughout (fun past f => f.chunk = timed past.length f.room) fetches
  rooms : InRoom nbytes fetches
  /-- What has been delivered, and behind it what the buffer held. -/
  buffer : buf = received fetches ++ buf₀.drop (received fetches).length
  fails : ret = -1 ↔ 0 < nbytes ∧ timed 0 nbytes = none
  nothing : ret = -1 → received fetches = []
  counts : ret ≠ -1 → ret = (received fetches).length
  length_le : (received fetches).length ≤ nbytes
  stops : (received fetches).length < nbytes →
    ∃ past f, fetches = past ++ [f] ∧ (f.chunk = none ∨ f.chunk = some [])

section Loop

variable {timed : Nat → Nat → Option Bytes} {nbytes nleft off : Nat} {buf₀ buf : Bytes}
  {fetches : List (Fetch UInt8)}

/-- The loop in front of a call: all calls so far have delivered something. -/
structure Gathering (timed : Nat → Nat → Option Bytes) (nbytes : Nat) (buf₀ : Bytes)
    (nleft : Nat) (buf : Bytes) (off : Nat) (fetches : List (Fetch UInt8)) : Prop where
  outcomes : Throughout (fun past f => f.chunk = timed past.length f.room) fetches
  rooms : InRoom nbytes fetches
  begun : fetches = [] ∨ 0 < off ∧ timed 0 nbytes ≠ none
  off_eq : off = (received fetches).length
  left_eq : nleft + off = nbytes
  buffer : buf = received fetches ++ buf₀.drop off

theorem Gathering.start (timed : Nat → Nat → Option Bytes) (nbytes : Nat) (buf₀ : Bytes) :
    Gathering timed nbytes buf₀ nbytes buf₀ 0 [] :=
  ⟨throughout_nil, throughout_nil, .inl rfl, rfl, Nat.add_zero nbytes, rfl⟩

/-- The call that comes next. -/
theorem Gathering.call (h : Gathering timed nbytes buf₀ nleft buf off fetches) :
    Throughout (fun past f => f.chunk = timed past.length f.room)
        (fetches ++ [⟨nleft, timed fetches.length nleft⟩]) ∧
      InRoom nbytes (fetches ++ [⟨nleft, timed fetches.length nleft⟩]) := by
  refine ⟨(throughout_concat_iff _ _).2 ⟨h.outcomes, rfl⟩,
    (throughout_concat_iff _ _).2 ⟨h.rooms, ?_⟩⟩
  exact Nat.le_of_eq (by rw [← h.off_eq, h.left_eq])

/-- All places are filled. -/
theorem Gathering.full (h : Gathering timed nbytes buf₀ 0 buf off fetches) :
    Gathers timed nbytes buf₀ buf (nbytes : Int) fetches := by
  have hoff : (received fetches).length = nbytes := by
    rw [← h.off_eq, ← h.left_eq, Nat.zero_add]
  refine ⟨h.outcomes, h.rooms, h.off_eq ▸ h.buffer, ?_, fun hneg => by omega,
    fun _ => by rw [hoff], Nat.le_of_eq hoff, fun hlt => absurd hoff (Nat.ne_of_lt hlt)⟩
  constructor
  · intro hret
    omega
  · rintro ⟨hpos, hnone⟩
    rcases h.begun with hnil | ⟨-, hsome⟩
    · rw [hnil, received_nil, List.length_nil] at hoff
      omega
    · exact absurd hnone hsome

/-- What is not left has been delivered. -/
theorem Gathering.count (h : Gathering timed nbytes buf₀ nleft buf off fetches) :
    nbytes - nleft = (received fetches).length := by
  rw [← h.off_eq, ← h.left_eq]
  exact Nat.add_sub_cancel_left nleft off

/-- How the loop tells its first call from the others. -/
theorem Gathering.first_iff (h : Gathering timed nbytes buf₀ nleft buf off fetches) :
    nleft = nbytes ↔ fetches = [] := by
  have hleft := h.left_eq
  have hoff := h.off_eq
  constructor
  · intro hall
    rcases h.begun with hnil | ⟨hpos, -⟩
    · exact hnil
    · omega
  · intro hnil
    rw [hnil, received_nil, List.length_nil] at hoff
    omega

/-- A call that delivers nothing ends the loop. -/
theorem Gathering.ends (h : Gathering timed nbytes buf₀ nleft buf off fetches) {ret : Int}
    (hlast : timed fetches.length nleft = none ∨ timed fetches.length nleft = some [])
    (hfails : ret = -1 ↔ 0 < nbytes ∧ timed 0 nbytes = none) (hnothing : ret = -1 → fetches = [])
    (hret : ret ≠ -1 → ret = ((nbytes - nleft : Nat) : Int)) :
    Gathers timed nbytes buf₀ buf ret (fetches ++ [⟨nleft, timed fetches.length nleft⟩]) := by
  have hdata : (timed fetches.length nleft).getD [] = [] := by
    rcases hlast with hnone | heof
    · rw [hnone]
      rfl
    · rw [heof]
      rfl
  have hreceived : received (fetches ++ [⟨nleft, timed fetches.length nleft⟩]) =
      received fetches := by
    rw [received_concat, hdata, List.append_nil]
  refine ⟨h.call.1, h.call.2, ?_, hfails, ?_, ?_, ?_, fun _ => ⟨fetches, _, rfl, hlast⟩⟩
  · rw [hreceived, ← h.off_eq]
    exact h.buffer
  · intro hneg
    rw [hreceived, hnothing hneg]
    rfl
  · rw [hreceived, ← h.count]
    exact hret
  · rw [hreceived, ← h.count]
    exact Nat.sub_le nbytes nleft

/-- A call that fails. Only the first one is reported. -/
theorem Gathering.failed (h : Gathering timed nbytes buf₀ nleft buf off fetches)
    (hleft : 0 < nleft) (hnone : timed fetches.length nleft = none) :
    Gathers timed nbytes buf₀ buf (if nleft = nbytes then -1 else ((nbytes - nleft : Nat) : Int))
      (fetches ++ [⟨nleft, timed fetches.length nleft⟩]) := by
  by_cases hall : nleft = nbytes
  · rw [if_pos hall]
    refine h.ends (.inl hnone) ⟨fun _ => ?_, fun _ => rfl⟩ (fun _ => h.first_iff.1 hall)
      (fun hne => absurd rfl hne)
    rw [h.first_iff.1 hall, hall, List.length_nil] at hnone
    exact ⟨hall ▸ hleft, hnone⟩
  · rw [if_neg hall]
    refine h.ends (.inl hnone) ⟨fun hneg => ?_, fun hfirst => ?_⟩ (fun hneg => ?_) (fun _ => rfl)
    · omega
    · rcases h.begun with hnil | ⟨-, hsome⟩
      · exact absurd (h.first_iff.2 hnil) hall
      · exact absurd hfirst.2 hsome
    · omega

/-- The end of the file. -/
theorem Gathering.eof (h : Gathering timed nbytes buf₀ nleft buf off fetches)
    (heof : timed fetches.length nleft = some []) :
    Gathers timed nbytes buf₀ buf ((nbytes - nleft : Nat) : Int)
      (fetches ++ [⟨nleft, timed fetches.length nleft⟩]) := by
  refine h.ends (.inr heof) ⟨fun hneg => ?_, fun hfirst => ?_⟩ (fun hneg => ?_) (fun _ => rfl)
  · omega
  · rcases h.begun with hnil | ⟨-, hsome⟩
    · rw [h.first_iff.2 hnil, hnil, List.length_nil, hfirst.2] at heof
      cases heof
    · exact absurd hfirst.2 hsome
  · omega

/-- A call that delivers something. -/
theorem Gathering.next (h : Gathering timed nbytes buf₀ nleft buf off fetches) {chunk : Bytes}
    (hroom : nbytes ≤ buf₀.length) (hchunk : timed fetches.length nleft = some chunk)
    (hle : chunk.length ≤ nleft) (hne : chunk.length ≠ 0) :
    ∃ buf', overwrite buf off chunk = some buf' ∧
      Gathering timed nbytes buf₀ (nleft - chunk.length) buf' (off + chunk.length)
        (fetches ++ [⟨nleft, timed fetches.length nleft⟩]) := by
  have hleft := h.left_eq
  have hoff := h.off_eq
  have hlen : buf.length = buf₀.length := by
    rw [h.buffer, List.length_append, ← hoff, List.length_drop]
    omega
  refine ⟨buf.take off ++ chunk ++ buf.drop (off + chunk.length), ?_, h.call.1, h.call.2,
    .inr ⟨by omega, ?_⟩, ?_, by omega, ?_⟩
  · rw [overwrite, if_pos]
    omega
  · rcases h.begun with hnil | ⟨-, hsome⟩
    · rw [hnil, received_nil, List.length_nil] at hoff
      have hall : nleft = nbytes := by omega
      rw [hnil, hall, List.length_nil] at hchunk
      rw [hchunk]
      exact Option.some_ne_none chunk
    · exact hsome
  · rw [received_concat, List.length_append, ← hoff, hchunk]
    rfl
  · rw [received_concat, hchunk, Option.getD_some, h.buffer, hoff, List.take_left,
      List.drop_append, List.drop_of_length_le (Nat.le_add_right _ _), List.nil_append,
      Nat.add_sub_cancel_left, List.drop_drop]

theorem dreadnLoop_gathers (hbound : ∀ k room chunk, timed k room = some chunk →
    chunk.length ≤ room) (hroom : nbytes ≤ buf₀.length) : ∀ (fuel nleft : Nat) (buf : Bytes)
    (off : Nat) (fetches : List (Fetch UInt8)),
    Gathering timed nbytes buf₀ nleft buf off fetches → nleft ≤ fuel →
    ∃ ret buf' fetches', dreadnLoop timed nbytes fuel nleft buf off fetches =
      some (ret, buf', fetches') ∧ Gathers timed nbytes buf₀ buf' ret fetches' := by
  intro fuel
  induction fuel with
  | zero =>
    intro nleft buf off fetches h hfuel
    obtain rfl := Nat.le_zero.1 hfuel
    exact ⟨_, _, _, rfl, h.full⟩
  | succ fuel ih =>
    intro nleft buf off fetches h hfuel
    rw [dreadnLoop]
    by_cases hleft : 0 < nleft
    · rw [if_pos hleft]
      cases hchunk : timed fetches.length nleft with
      | none =>
        have hends := h.failed hleft hchunk
        rw [hchunk] at hends
        by_cases hall : nleft = nbytes
        · rw [if_pos hall] at hends
          exact ⟨_, _, _, if_pos hall, hends⟩
        · rw [if_neg hall] at hends
          exact ⟨_, _, _, if_neg hall, hends⟩
      | some chunk =>
        by_cases hnil : chunk.length = 0
        · obtain rfl := List.length_eq_zero_iff.1 hnil
          have hends := h.eof hchunk
          rw [hchunk] at hends
          exact ⟨_, _, _, if_pos rfl, hends⟩
        · have hle := hbound _ _ _ hchunk
          obtain ⟨buf', hbuf', hnext⟩ := h.next hroom hchunk hle hnil
          rw [hchunk] at hnext
          obtain ⟨ret, buf'', fetches', hloop, hgathers⟩ := ih _ _ _ _ hnext (by omega)
          refine ⟨ret, buf'', fetches', ?_, hgathers⟩
          simp only [if_neg hnil, hbuf', Option.bind_eq_bind, Option.bind_some]
          exact hloop
    · obtain rfl : nleft = 0 := by omega
      rw [if_neg hleft]
      exact ⟨_, _, _, rfl, h.full⟩

end Loop

theorem dread_le (fd : Tty) {k room : Nat} {chunk : Bytes} (h : dread fd k room = some chunk) :
    chunk.length ≤ room := by
  rw [dread] at h
  split at h
  · cases h
  · exact fd.read_le k room chunk h

end ReadGps

namespace Muart

open ReadGps

theorem muartReadTimeout_le (m : Muart) {timeout k room : Nat} {chunk : Bytes}
    (h : muartReadTimeout m timeout k room = some chunk) : chunk.length ≤ room := by
  rw [muartReadTimeout] at h
  split at h
  · cases h
  · exact m.fd.read_le k room chunk h

theorem muartReadNbytes_gathers (m : Muart) (timeout : Nat) {buf : Bytes} {nbytes : Nat}
    (hroom : nbytes ≤ buf.length) : ∃ ret buf' fetches,
      muartReadNbytes m buf nbytes timeout = some (ret, buf', fetches) ∧
        Gathers (muartReadTimeout m timeout) nbytes buf buf' ret fetches :=
  dreadnLoop_gathers (fun _ _ _ => muartReadTimeout_le m) hroom _ _ _ _ _ (.start _ _ _)
    (Nat.le_refl nbytes)

/-- `muart_read_nbytes` and `dreadn`, whatever the descriptor does. -/
theorem readNbytes_gather (m : Muart) (fd : Tty) (timeout : Nat) {buf : Bytes} {nbytes : Nat}
    (hroom : nbytes ≤ buf.length) :
    (∃ ret buf' fetches, muartReadNbytes m buf nbytes timeout = some (ret, buf', fetches) ∧
      Gathers (muartReadTimeout m timeout) nbytes buf buf' ret fetches) ∧
    (∃ ret buf' fetches, dreadn fd buf nbytes = some (ret, buf', fetches) ∧
      Gathers (dread fd) nbytes buf buf' ret fetches) := by
  refine ⟨muartReadNbytes_gathers m timeout hroom, ?_⟩
  exact dreadnLoop_gathers (fun _ _ _ => dread_le fd) hroom _ _ _ _ _ (.start _ _ _)
    (Nat.le_refl nbytes)

/-- Two bytes, and no more of them. -/
def twoBytes : Tty where
  write _ size := some size
  select _ := 1
  read k nbytes := if k = 0 then some ((text "OK").take nbytes) else none
  write_le _ _ _ h := Nat.le_of_eq (Option.some.inj h).symm
  read_le k nbytes chunk h := by
    by_cases hk : k = 0
    · rw [if_pos hk] at h
      rw [← Option.some.inj h]
      exact List.length_take_le nbytes _
    · rw [if_neg hk] at h
      cases h

theorem readNbytes_gather_two :
    (∃ ret buf' fetches,
      muartReadNbytes ⟨twoBytes, 128⟩ (List.replicate 4 0) 4 1 = some (ret, buf', fetches) ∧
        Gathers (muartReadTimeout ⟨twoBytes, 128⟩ 1) 4 (List.replicate 4 0) buf' ret fetches) ∧
    (∃ ret buf' fetches, dreadn twoBytes (List.replicate 4 0) 4 = some (ret, buf', fetches) ∧
      Gathers (dread twoBytes) 4 (List.replicate 4 0) buf' ret fetches) :=
  readNbytes_gather ⟨twoBytes, 128⟩ twoBytes 1 (by decide)

end Muart
end CFunction
