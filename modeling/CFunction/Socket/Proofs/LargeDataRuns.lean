import CFunction.Socket.LargeData
import Mathlib.Algebra.Order.Ring.Int

/-!
# What the large-data client sends

Every `write` is offered the beginning of the buffer. `sum` and `nleft` count the accepted bytes
right, and the bytes themselves are right as long as the buffer repeats its beginning.
-/

namespace CFunction
namespace LargeData

open CString Transfer

variable {p : Bytes} {offers : List (Offer UInt8)} {c : Client}

/-- The accepted bytes are the first `sum` bytes of the buffer, and all of them when none is
left. -/
structure SendsBuffer (p : Bytes) (offers : List (Offer UInt8)) (c : Client) : Prop where
  accepted_eq : accepted offers = p.take c.sum.toNat
  whole : c.nleft = 0 → accepted offers = p

/-- The sum of what the calls return. -/
def returned (offers : List (Offer UInt8)) : Nat := (offers.map fun o => o.taken.getD 0).sum

/-- A `write` that accepts `n` bytes finds in the first `n` bytes of the buffer those that come
behind the bytes accepted before it. -/
def Repeats (p : Bytes) : List (Offer UInt8) → Prop :=
  Throughout fun past o => ∀ n, o.taken = some n →
    p.take n <+: p.drop (returned past)

/-- `sum` and `nleft` count the accepted bytes. -/
structure Counts (p : Bytes) (offers : List (Offer UInt8)) (c : Client) : Prop where
  sum_eq : c.sum = (accepted offers).length
  left_eq : c.sum + c.nleft = p.length
  left_nonneg : 0 ≤ c.nleft
  returned_eq : returned offers = (accepted offers).length

theorem counts_start (p : Bytes) : Counts p [] (Client.start p) :=
  ⟨rfl, Int.zero_add _, Int.natCast_nonneg _, rfl⟩

theorem Client.offered_length_le (c : Client) (p : Bytes) :
    (c.offered p).length ≤ c.nleft.toNat := List.length_take_le _ _

/-- What a `write` takes of its offer. -/
theorem accepted_offered {outcome : Outcome}
    (fits : ∀ n, outcome = .ret n → n ≤ (c.offered p).length) :
    Offer.accepted ⟨c.offered p, outcome.taken⟩ = p.take (outcome.taken.getD 0) := by
  rw [Offer.accepted, Client.offered, List.take_take]
  congr 1
  apply Nat.min_eq_left
  cases outcome with
  | ret n => exact Nat.le_trans (fits n rfl) (c.offered_length_le p)
  | _ => exact Nat.zero_le _

theorem Counts.step {o : Offer UInt8} {d : Client} (h : Counts p offers c) (hstep : Step p c o d) :
    Counts p (offers ++ [o]) d := by
  cases hstep with
  | @write outcome more fits =>
    have haccepted := accepted_offered fits
    have hleft := h.left_eq
    have hlength : (p.take (outcome.taken.getD 0)).length = outcome.taken.getD 0 := by
      rw [List.length_take]
      apply Nat.min_eq_left
      cases outcome with
      | ret n => exact Nat.le_trans (fits n rfl) (List.length_take_le' _ _)
      | _ => exact Nat.zero_le _
    have hreturned : returned (offers ++ [⟨c.offered p, outcome.taken⟩]) =
        (accepted (offers ++ [⟨c.offered p, outcome.taken⟩])).length := by
      rw [returned, List.map_append, List.sum_append, ← returned, h.returned_eq, accepted_concat,
        List.length_append, haccepted, hlength]
      rfl
    refine ⟨?_, ?_, ?_, hreturned⟩
    · rw [accepted_concat, List.length_append, haccepted, hlength, Int.natCast_add, ← h.sum_eq]
      cases outcome with
      | ret n => rfl
      | _ => exact (Int.add_zero _).symm
    · cases outcome with
      | ret n =>
        dsimp only [Client.onWrite]
        omega
      | _ => exact hleft
    · cases outcome with
      | ret n =>
        have hn := Nat.le_trans (fits n rfl) (c.offered_length_le p)
        have hnonneg := h.left_nonneg
        dsimp only [Client.onWrite]
        omega
      | _ => exact h.left_nonneg

theorem run_counts (run : Run (Step p) (Client.start p) offers c) : Counts p offers c :=
  run.invariant (P := Counts p) (counts_start p) fun _ _ _ _ h hstep => h.step hstep

/-- With the counts right, the bytes are right when they are the beginning of the buffer. -/
theorem Counts.sendsBuffer_iff (h : Counts p offers c) :
    SendsBuffer p offers c ↔ accepted offers <+: p := by
  have hsum : c.sum.toNat = (accepted offers).length := by
    rw [h.sum_eq, Int.toNat_natCast]
  rw [List.prefix_iff_eq_take, ← hsum]
  constructor
  · exact fun hsends => hsends.accepted_eq
  · intro haccepted
    refine ⟨haccepted, fun hleft => ?_⟩
    have hall := h.left_eq
    rw [hleft] at hall
    rw [haccepted, List.take_of_length_le (by omega)]

/-- The client sends its buffer exactly when every `write` finds at the beginning of the buffer
the bytes that come next. -/
theorem run_sends_iff (run : Run (Step p) (Client.start p) offers c) :
    SendsBuffer p offers c ↔ Repeats p offers := by
  rw [(run_counts run).sendsBuffer_iff, accepted_isPrefix_iff, Repeats]
  refine forall_congr' fun past => forall_congr' fun o => forall_congr' fun rest =>
    forall_congr' fun hoffers => ?_
  obtain ⟨b, d, hpast, hstep⟩ := run.step_of_history hoffers
  beta_reduce
  rw [(run_counts hpast).returned_eq]
  cases hstep with
  | @write outcome more fits =>
    rw [accepted_offered fits]
    dsimp only
    cases outcome with
    | ret n =>
      constructor
      · intro h m hm
        rw [← Option.some.inj hm]
        exact h
      · exact fun h => h n rfl
    | _ => exact iff_of_true List.nil_prefix nofun

/-- Three bytes in two writes. -/
theorem run_sends_iff_repeated :
    SendsBuffer [33, 33, 33] [⟨[33, 33, 33], some 1⟩, ⟨[33, 33], none⟩, ⟨[33, 33], some 2⟩]
        ⟨3, 0, false⟩ ↔
      Repeats [33, 33, 33] [⟨[33, 33, 33], some 1⟩, ⟨[33, 33], none⟩, ⟨[33, 33], some 2⟩] := by
  have hfirst : Run (Step [33, 33, 33]) (Client.start [33, 33, 33])
      [⟨[33, 33, 33], some 1⟩] ⟨1, 2, false⟩ :=
    Run.nil.snoc (.write (.ret 1) rfl (by intro n hn; cases hn; decide))
  have hagain := hfirst.snoc (.write .EAGAIN rfl nofun)
  have hsecond := hagain.snoc (.write (.ret 2) rfl (by intro n hn; cases hn; decide))
  exact run_sends_iff hsecond

/-- Two bytes in two writes: the first one goes out twice. -/
theorem first_bytes_sent_again : ¬ ∀ p offers c,
    Run (Step p) (Client.start p) offers c → SendsBuffer p offers c := by
  intro h
  have hfirst : Run (Step [33, 34]) (Client.start [33, 34]) [⟨[33, 34], some 1⟩] ⟨1, 1, false⟩ :=
    Run.nil.snoc (.write (.ret 1) rfl (by intro n hn; cases hn; decide))
  have hsecond := hfirst.snoc (.write (.ret 1) rfl (by intro n hn; cases hn; decide))
  have hwhole := (h _ _ _ hsecond).whole rfl
  exact absurd hwhole (by decide)

end LargeData
end CFunction
