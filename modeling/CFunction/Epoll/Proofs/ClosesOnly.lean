import CFunction.Epoll.Proofs.EchoRuns

/-!
# When the server closes a client

The reads ask for the room that is left in `line`. With all room used up they ask for nothing, and
the zero that `read` then returns is taken for the end of the connection.
-/

namespace CFunction
namespace EpollClassic

open CString

variable {s : Server} {fd fuel : Nat} {sock : Socket} {results : List ReadResult}

/-- The socket is closed only if the peer has closed the connection or a `read` has failed, and is
open and armed for `EPOLLOUT` otherwise. -/
structure ClosesOnlyWhenMust (sock : Socket) (fd : Nat) (s : Server) (results : List ReadResult) :
    Prop where
  closes : s.registered fd = none → sock.ending = .closed ∨ .error ∈ results
  rearms : ¬ (sock.ending = .closed ∨ .error ∈ results) → s.registered fd = some .EPOLLOUT

/-- What the end of the reads does to the registration. -/
def Server.finish (s : Server) (fd : Nat) : Ending → Server
  | .quiet => s.epollCtl fd .EPOLLOUT
  | _ => s.close fd

/-- The next chunk of the pending bytes. -/
def Socket.next (sock : Socket) (k size : Nat) : Bytes :=
  sock.pending.take (min size (max 1 (sock.chunk k)))

theorem Socket.next_ne_nil {k size : Nat} (hsize : size ≠ 0) (hpending : sock.pending ≠ []) :
    sock.next k size ≠ [] := by
  have hlength := List.length_pos_iff.2 hpending
  rw [← List.length_pos_iff, Socket.next, List.length_take]
  omega

theorem Socket.next_length_le (sock : Socket) (k size : Nat) :
    (sock.next k size).length ≤ size ∧ (sock.next k size).length ≤ sock.pending.length := by
  rw [Socket.next, List.length_take]
  omega

theorem Socket.take_next (sock : Socket) (k size : Nat) :
    sock.pending.take (sock.next k size).length = sock.next k size :=
  (List.prefix_iff_eq_take.1 (List.take_prefix _ _)).symm

/-! ### The reads -/

theorem read_next {k size : Nat} (hsize : size ≠ 0) (hpending : sock.pending ≠ []) :
    sock.read k size = .bytes (sock.next k size) := by
  rw [Socket.read, if_neg hsize, if_neg hpending, Socket.next]

/-- A round that reads bytes. -/
theorem epollinLoop_bytes {data line : Bytes} (hdata : data ≠ [])
    (hread : sock.read results.length (MAXLINE - 1 - s.nbytes) = .bytes data)
    (hline : overwrite s.line s.nbytes data = some line) :
    Server.epollinLoop fd (fuel + 1) s sock results =
      Server.epollinLoop fd fuel { s with line := line, nbytes := s.nbytes + data.length }
        { sock with pending := sock.pending.drop data.length } (results ++ [.bytes data]) := by
  rw [Server.epollinLoop, hread]
  cases data with
  | nil => exact absurd rfl hdata
  | cons b data =>
    dsimp only
    rw [hline]
    rfl

/-- The last round, with nothing left to read. -/
theorem epollinLoop_ending (hread : sock.read results.length (MAXLINE - 1 - s.nbytes) =
      sock.ending.result) :
    Server.epollinLoop fd (fuel + 1) s sock results =
      some (s.finish fd sock.ending, results ++ [sock.ending.result]) := by
  rw [Server.epollinLoop, hread]
  cases sock.ending <;> rfl

/-- The last round, with no room left. -/
theorem epollinLoop_full (hread : sock.read results.length (MAXLINE - 1 - s.nbytes) = .bytes []) :
    Server.epollinLoop fd (fuel + 1) s sock results =
      some (s.close fd, results ++ [.bytes []]) := by
  rw [Server.epollinLoop, hread]

/-- The loop reads as many of the pending bytes as there is room for, whatever the chunks are. It
ends as the socket tells when room is left, and closes the socket otherwise. -/
theorem epollinLoop_eq (fd fuel : Nat) : ∀ (s : Server) (sock : Socket)
    (results : List ReadResult), s.line.length = MAXLINE → s.nbytes ≤ MAXLINE - 1 →
      sock.pending.length < fuel → ∃ chunks t, s.readLoop chunks = some t ∧
        (∀ data ∈ chunks, data ≠ []) ∧
        chunks.flatten = sock.pending.take (MAXLINE - 1 - s.nbytes) ∧
        Server.epollinLoop fd fuel s sock results =
          some (if sock.pending.length < MAXLINE - 1 - s.nbytes then
              (t.finish fd sock.ending,
                results ++ chunks.map .bytes ++ [sock.ending.result])
            else (t.close fd, results ++ chunks.map .bytes ++ [.bytes []])) := by
  induction fuel with
  | zero => exact fun _ _ _ _ _ hfuel => absurd hfuel (Nat.not_lt_zero _)
  | succ fuel ih =>
    intro s sock results hline hnbytes hfuel
    by_cases hroom : MAXLINE - 1 - s.nbytes = 0
    · refine ⟨[], s, rfl, nofun, ?_, ?_⟩
      · rw [hroom]
        rfl
      · rw [epollinLoop_full (by rw [Socket.read, if_pos hroom]), if_neg (by omega), List.map_nil,
          List.append_nil]
    · by_cases hpending : sock.pending = []
      · refine ⟨[], s, rfl, nofun, ?_, ?_⟩
        · rw [hpending, List.take_nil]
          rfl
        · have hread : sock.read results.length (MAXLINE - 1 - s.nbytes) = sock.ending.result := by
            rw [Socket.read, if_neg hroom, if_pos hpending]
          have hempty : sock.pending.length < MAXLINE - 1 - s.nbytes := by
            rw [hpending, List.length_nil]
            omega
          rw [epollinLoop_ending hread, if_pos hempty, List.map_nil, List.append_nil]
      · -- A round that reads `data`.
        have hread := read_next (k := results.length) hroom hpending
        have hdata := Socket.next_ne_nil (k := results.length) hroom hpending
        have htake := sock.take_next results.length (MAXLINE - 1 - s.nbytes)
        obtain ⟨hsize, hlength⟩ := sock.next_length_le results.length (MAXLINE - 1 - s.nbytes)
        generalize sock.next results.length (MAXLINE - 1 - s.nbytes) = data at *
        have hpos := List.length_pos_iff.2 hdata
        obtain ⟨line, hwrite, hline'⟩ : ∃ line, overwrite s.line s.nbytes data = some line ∧
            line.length = MAXLINE := by
          have hfits : s.nbytes + data.length ≤ s.line.length := by omega
          have hwrite : overwrite s.line s.nbytes data = some _ := if_pos hfits
          exact ⟨_, hwrite, (length_overwrite hwrite).trans hline⟩
        obtain ⟨chunks, t, hloop, hne, hflatten, hend⟩ :=
          ih { s with line := line, nbytes := s.nbytes + data.length }
            { sock with pending := sock.pending.drop data.length } (results ++ [.bytes data]) hline'
            (by dsimp only; omega) (by rw [List.length_drop]; omega)
        refine ⟨data :: chunks, t, ?_, ?_, ?_, ?_⟩
        · rw [Server.readLoop, hwrite]
          exact hloop
        · intro d hd
          rcases List.mem_cons.1 hd with rfl | hd
          · exact hdata
          · exact hne d hd
        · have hsplit : MAXLINE - 1 - s.nbytes =
              data.length + (MAXLINE - 1 - (s.nbytes + data.length)) := by omega
          rw [List.flatten_cons, hflatten, hsplit, List.take_add, htake]
        · rw [epollinLoop_bytes hdata hread hwrite, hend, List.map_cons, List.append_assoc,
            List.append_assoc, List.singleton_append, List.length_drop]
          have hsame : sock.pending.length - data.length < MAXLINE - 1 - (s.nbytes + data.length) ↔
              sock.pending.length < MAXLINE - 1 - s.nbytes := by omega
          simp only [hsame, List.append_assoc, List.cons_append, List.nil_append]

/-! ### The branch -/

/-- The whole branch: the chunks that are read, and how it ends. -/
theorem epollin_eq (s : Server) (fd : Nat) (hfuel : sock.pending.length < fuel) :
    ∃ chunks t, (∀ data ∈ chunks, data ≠ []) ∧
      chunks.flatten = sock.pending.take (MAXLINE - 1) ∧
      { s with nbytes := 0, line := List.replicate MAXLINE 0 }.readLoop chunks = some t ∧
      s.epollin fd fuel sock =
        some (if sock.pending.length < MAXLINE - 1 then
            (t.finish fd sock.ending, chunks.map .bytes ++ [sock.ending.result])
          else (t.close fd, chunks.map .bytes ++ [.bytes []])) := by
  obtain ⟨chunks, t, hloop, hne, hflatten, hend⟩ := epollinLoop_eq fd fuel
    { s with nbytes := 0, line := List.replicate MAXLINE 0 } sock [] List.length_replicate
    (Nat.zero_le _) hfuel
  exact ⟨chunks, t, hne, hflatten, hloop, hend⟩

/-- With room left and nothing behind the bytes, the branch is that of `onEpollin`. -/
theorem epollin_eq_onEpollin (s : Server) (fd : Nat) (hfuel : sock.pending.length < fuel)
    (hroom : sock.pending.length < MAXLINE - 1) (hquiet : sock.ending = .quiet) :
    ∃ chunks t, (∀ data ∈ chunks, data ≠ []) ∧ chunks.flatten = sock.pending ∧
      s.onEpollin fd chunks = some t ∧
      s.epollin fd fuel sock = some (t, chunks.map .bytes ++ [.EAGAIN]) := by
  obtain ⟨chunks, t, hne, hflatten, hloop, hend⟩ := epollin_eq s fd hfuel
  refine ⟨chunks, t.epollCtl fd .EPOLLOUT, hne, ?_, ?_, ?_⟩
  · rw [hflatten, List.take_of_length_le (Nat.le_of_lt hroom)]
  · rw [Server.onEpollin, hloop]
    rfl
  · rw [hend, if_pos hroom, hquiet]
    rfl

theorem error_mem_iff {chunks : List Bytes} {r : ReadResult} :
    .error ∈ chunks.map ReadResult.bytes ++ [r] ↔ r = .error := by
  rw [List.mem_append, List.mem_singleton]
  constructor
  · intro h
    rcases h with h | h
    · obtain ⟨data, -, hdata⟩ := List.mem_map.1 h
      cases hdata
    · exact h.symm
  · exact fun h => Or.inr h.symm

@[simp] theorem close_registered (s : Server) (fd : Nat) :
    (s.close fd).registered = Function.update s.registered fd none := rfl

/-- The branch ends, and closes the client only when it must, exactly when less than 511 bytes
are pending or the peer has closed the connection behind them. -/
theorem epollin_closesOnly_iff (s : Server) (fd : Nat) (hfuel : sock.pending.length < fuel) :
    (∃ t results, s.epollin fd fuel sock = some (t, results) ∧
        ClosesOnlyWhenMust sock fd t results) ↔
      sock.pending.length < MAXLINE - 1 ∨ sock.ending = .closed := by
  obtain ⟨chunks, t, -, -, -, hend⟩ := epollin_eq s fd hfuel
  by_cases hroom : sock.pending.length < MAXLINE - 1
  · refine iff_of_true ⟨_, _, by rw [hend, if_pos hroom], ?_⟩ (Or.inl hroom)
    rw [if_pos hroom] at hend
    cases hending : sock.ending with
    | quiet =>
      refine ⟨fun hclosed => ?_, fun _ => ?_⟩
      · rw [Server.finish, epollCtl_registered, Function.update_self] at hclosed
        cases hclosed
      · rw [Server.finish, epollCtl_registered, Function.update_self]
    | closed => exact ⟨fun _ => Or.inl hending, fun h => absurd (Or.inl hending) h⟩
    | failed =>
      exact ⟨fun _ => Or.inr (error_mem_iff.2 rfl), fun h =>
        absurd (Or.inr (error_mem_iff.2 rfl)) h⟩
  · rw [if_neg hroom] at hend
    have hnone : (t.close fd).registered fd = none := by
      rw [close_registered, Function.update_self]
    constructor
    · intro h
      obtain ⟨u, results, hrun, hmust⟩ := h
      obtain ⟨rfl, rfl⟩ := Prod.mk.inj (Option.some.inj (hend.symm.trans hrun))
      rcases hmust.closes hnone with hclosed | herror
      · exact Or.inr hclosed
      · cases error_mem_iff.1 herror
    · intro h
      have hclosed := h.resolve_left hroom
      exact ⟨_, _, hend, fun _ => Or.inl hclosed, fun hopen => absurd (Or.inl hclosed) hopen⟩

/-- Three bytes in chunks of two. -/
theorem epollin_closesOnly_iff_three :
    (∃ t results, (Server.init [] 0).epollin 5 4 ⟨[104, 105, 33], fun _ => 2, .quiet⟩ =
        some (t, results) ∧ ClosesOnlyWhenMust ⟨[104, 105, 33], fun _ => 2, .quiet⟩ 5 t results) ↔
      [104, 105, 33].length < MAXLINE - 1 ∨ Ending.quiet = .closed := by
  apply epollin_closesOnly_iff
  decide

/-- A client that sends 511 bytes and waits for the answer is closed. -/
theorem full_line_closes : ¬ ∀ s fd fuel sock t results, sock.pending ≠ [] →
    Server.epollin s fd fuel sock = some (t, results) → ClosesOnlyWhenMust sock fd t results := by
  intro h
  let sock : Socket := ⟨List.replicate 511 97, fun _ => 100, .quiet⟩
  have hlength : sock.pending.length = 511 := List.length_replicate
  have hfuel : sock.pending.length < 512 := by
    rw [hlength]
    decide
  obtain ⟨chunks, t, -, -, -, hend⟩ := epollin_eq (Server.init [] 0) 5 hfuel
  rw [if_neg (by rw [hlength]; decide)] at hend
  have hmust := h _ _ _ sock _ _ (List.ne_nil_of_length_pos (by rw [hlength]; decide)) hend
  rcases hmust.closes (by rw [close_registered, Function.update_self]) with hclosed | herror
  · cases hclosed
  · cases error_mem_iff.1 herror

end EpollClassic
end CFunction
