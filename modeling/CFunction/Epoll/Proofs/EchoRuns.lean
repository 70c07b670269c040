import CFunction.Epoll.EpollClassic
import CFunction.Misc.Runs

/-!
# What the server echoes

`line` holds the bytes of the last `EPOLLIN` event of any client, so that a client gets its own
bytes back exactly when no other bytes have been read since.
-/

namespace CFunction
namespace EpollClassic

open CString

/-- The bytes of an `EPOLLIN` event. -/
def Event.read : Event → Option Bytes
  | .epollin _ reads => some reads.flatten
  | _ => none

/-- The bytes of an `EPOLLIN` event of the client `fd`. -/
def Event.readFrom (fd : Nat) : Event → Option Bytes
  | .epollin sockfd reads => if sockfd = fd then some reads.flatten else none
  | _ => none

/-- The bytes of the last `EPOLLIN` event. -/
def lastRead (past : List Event) : Option Bytes := (past.filterMap Event.read).getLast?

/-- The bytes of the last `EPOLLIN` event of the client `fd`. -/
def lastReadFrom (fd : Nat) (past : List Event) : Option Bytes :=
  (past.filterMap (Event.readFrom fd)).getLast?

/-- At each `EPOLLOUT` event the client is written the bytes of its own last `EPOLLIN` event. -/
def EchoesOwn : List Event → Prop :=
  Throughout fun past e => ∀ fd written, e = .epollout fd written →
    lastReadFrom fd past = some written

/-- At each `EPOLLOUT` event the last `EPOLLIN` event of any client has read what the last one of
this client has. -/
def OwnReadLast : List Event → Prop :=
  Throughout fun past e => ∀ fd written, e = .epollout fd written →
    lastRead past = lastReadFrom fd past

/-- The loop of reads appends to the bytes in front of the NULs. -/
theorem readLoop_eq (reads : List Bytes) : ∀ (s : Server) (data : Bytes) (n : Nat),
    s.line = data ++ List.replicate n 0 → s.nbytes = data.length → reads.flatten.length ≤ n →
      s.readLoop reads = some { s with
        line := data ++ reads.flatten ++ List.replicate (n - reads.flatten.length) 0
        nbytes := (data ++ reads.flatten).length } := by
  induction reads with
  | nil =>
    intro s data n hline hnbytes _
    simp [Server.readLoop, ← hline, ← hnbytes]
  | cons d reads ih =>
    intro s data n hline hnbytes hn
    rw [List.flatten_cons, List.length_append] at hn
    have hroom : s.nbytes + d.length ≤ s.line.length := by
      rw [hline, hnbytes, List.length_append, List.length_replicate]
      omega
    have hwrite : overwrite s.line s.nbytes d =
        some (data ++ d ++ List.replicate (n - d.length) 0) := by
      rw [overwrite, if_pos hroom, hline, hnbytes, List.take_left, List.drop_append]
      simp
    rw [Server.readLoop, hwrite]
    refine (ih _ (data ++ d) (n - d.length) rfl ?_ (by omega)).trans ?_
    · rw [hnbytes, List.length_append]
    · simp [Nat.sub_sub]

@[simp] theorem epollCtl_registered (s : Server) (fd : Nat) (interest : Interest) :
    (s.epollCtl fd interest).registered = Function.update s.registered fd (some interest) := rfl

/-- An `EPOLLIN` event leaves its bytes in `line`. -/
theorem onEpollin_eq (s : Server) (fd : Nat) {reads : List Bytes}
    (h : reads.flatten.length < MAXLINE - 1) :
    ∃ s', s.onEpollin fd reads = some s' ∧ s'.line.take s'.nbytes = reads.flatten ∧
      s'.registered = Function.update s.registered fd (some .EPOLLOUT) := by
  have hloop := readLoop_eq reads { s with nbytes := 0, line := List.replicate MAXLINE 0 } []
    MAXLINE rfl rfl (by omega)
  refine ⟨_, by rw [Server.onEpollin, hloop]; rfl, ?_, rfl⟩
  simp [Server.epollCtl]

theorem lastRead_concat (past : List Event) (e : Event) :
    lastRead (past ++ [e]) = e.read.or (lastRead past) := by
  rw [lastRead, List.filterMap_append, List.getLast?_append]
  cases h : e.read with
  | none => simp [h, lastRead]
  | some bytes => simp [h]

/-- What `line` and the registrations say of the events so far. -/
structure Holds (past : List Event) (s : Server) : Prop where
  line : ∀ bytes, lastRead past = some bytes → s.line.take s.nbytes = bytes
  read : ∀ fd, s.registered fd = some .EPOLLOUT → lastRead past ≠ none

theorem Holds.step {past : List Event} {s s' : Server} {e : Event} (h : Holds past s)
    (hstep : Step s e s') : Holds (past ++ [e]) s' := by
  cases hstep with
  | @accept connfd new =>
    refine ⟨?_, ?_⟩
    · intro bytes hlast
      rw [lastRead_concat] at hlast
      exact h.line bytes hlast
    · intro fd hfd
      rw [lastRead_concat]
      rw [epollCtl_registered] at hfd
      by_cases heq : fd = connfd
      · rw [heq, Function.update_self] at hfd
        cases hfd
      · rw [Function.update_of_ne heq] at hfd
        exact h.read fd hfd
  | @epollin _ fd reads ready nonempty pending hread =>
    obtain ⟨t, ht, hline, -⟩ := onEpollin_eq s fd pending
    obtain rfl := Option.some.inj (ht.symm.trans hread)
    refine ⟨?_, ?_⟩
    · intro bytes hlast
      rw [lastRead_concat] at hlast
      rw [hline]
      exact Option.some.inj hlast
    · intro _ _
      rw [lastRead_concat]
      exact Option.some_ne_none _
  | @epollout fd ready =>
    refine ⟨?_, ?_⟩
    · intro bytes hlast
      rw [lastRead_concat] at hlast
      exact h.line bytes hlast
    · intro _ _
      rw [lastRead_concat]
      exact h.read fd ready

/-- An `EPOLLOUT` event writes the bytes of the last `EPOLLIN` event. -/
theorem Holds.written {past : List Event} {s s' : Server} {fd : Nat} {written : Bytes}
    (h : Holds past s) (hstep : Step s (.epollout fd written) s') :
    lastRead past = some written := by
  cases hstep with
  | epollout ready =>
    obtain ⟨bytes, hlast⟩ := Option.ne_none_iff_exists'.1 (h.read fd ready)
    rw [hlast, ← h.line bytes hlast]
    rfl

theorem run_holds {line : Bytes} {nbytes : Nat} {past : List Event} {s : Server}
    (run : Run Step (Server.init line nbytes) past s) : Holds past s := by
  induction run with
  | nil =>
    refine ⟨?_, ?_⟩
    · intro bytes hlast
      cases hlast
    · intro fd hfd
      cases hfd
  | snoc _ hstep ih => exact ih.step hstep

/-- In every run the clients get their own bytes back exactly when at each `EPOLLOUT` event the
last bytes read are those of this client. -/
theorem echoesOwn_iff {line : Bytes} {nbytes : Nat} {events : List Event} {s : Server}
    (run : Run Step (Server.init line nbytes) events s) :
    EchoesOwn events ↔ OwnReadLast events := by
  induction run with
  | nil => exact iff_of_true throughout_nil throughout_nil
  | @snoc past s t e hrun hstep ih =>
    have hholds := run_holds hrun
    rw [EchoesOwn, OwnReadLast, throughout_concat_iff, throughout_concat_iff]
    refine and_congr ih ?_
    constructor
    · rintro h fd written rfl
      rw [hholds.written hstep, h fd written rfl]
    · rintro h fd written rfl
      rw [← h fd written rfl, hholds.written hstep]

/-- An `EPOLLIN` event of a registered client, with what the rest of a run needs of it. -/
theorem exists_epollin {s : Server} (fd : Nat) (reads : List Bytes)
    (ready : s.registered fd = some .EPOLLIN) (nonempty : ∀ data ∈ reads, data ≠ [])
    (pending : reads.flatten.length < MAXLINE - 1) :
    ∃ s', Step s (.epollin fd reads) s' ∧ s'.line.take s'.nbytes = reads.flatten ∧
      s'.registered = Function.update s.registered fd (some .EPOLLOUT) := by
  obtain ⟨s', hread, hline, hregistered⟩ := onEpollin_eq s fd pending
  exact ⟨s', .epollin ready nonempty pending hread, hline, hregistered⟩

theorem exists_epollout {s : Server} (fd : Nat) {bytes : Bytes}
    (ready : s.registered fd = some .EPOLLOUT) (hline : s.line.take s.nbytes = bytes) :
    ∃ s', Step s (.epollout fd bytes) s' ∧
      s'.registered = Function.update s.registered fd (some .EPOLLIN) := by
  subst hline
  exact ⟨_, .epollout ready, rfl⟩

/-- Two clients. The first one sends twice, and each has its echo before the next one is read. -/
def sampleEvents : List Event :=
  [.accept 5, .accept 6, .epollin 5 [[104], [105]], .epollout 5 [104, 105], .epollin 6 [[121]],
    .epollout 6 [121], .epollin 5 [[120]], .epollout 5 [120]]

theorem echoesOwn_iff_two : EchoesOwn sampleEvents ↔ OwnReadLast sampleEvents := by
  have haccept : Run Step (Server.init [] 0) [.accept 5, .accept 6] _ :=
    (Run.nil.snoc (.accept rfl)).snoc (.accept rfl)
  obtain ⟨s, hin, hline, hregistered⟩ := exists_epollin 5 [[104], [105]]
    (s := ((Server.init [] 0).epollCtl 5 .EPOLLIN).epollCtl 6 .EPOLLIN) rfl (by decide) (by decide)
  obtain ⟨t, hout, hready⟩ := exists_epollout 5 (by rw [hregistered]; rfl) hline
  rw [hregistered] at hready
  obtain ⟨s', hin', hline', hregistered'⟩ := exists_epollin 6 [[121]]
    (s := t) (by rw [hready]; rfl) (by decide) (by decide)
  obtain ⟨t', hout', hready'⟩ := exists_epollout 6 (by rw [hregistered']; rfl) hline'
  rw [hregistered', hready] at hready'
  obtain ⟨s'', hin'', hline'', hregistered''⟩ := exists_epollin 5 [[120]]
    (s := t') (by rw [hready']; rfl) (by decide) (by decide)
  obtain ⟨t'', hout'', -⟩ := exists_epollout 5 (by rw [hregistered'']; rfl) hline''
  exact echoesOwn_iff
    ((((((haccept.snoc hin).snoc hout).snoc hin').snoc hout').snoc hin'').snoc hout'')

/-- Two clients send a byte each before the first of them is written to. -/
theorem echo_of_other_client :
    ¬ ∀ events s, Run Step (Server.init [] 0) events s → EchoesOwn events := by
  intro h
  have haccept : Run Step (Server.init [] 0) [.accept 5, .accept 6] _ :=
    (Run.nil.snoc (.accept rfl)).snoc (.accept rfl)
  obtain ⟨s, hin, -, hregistered⟩ := exists_epollin 5 [[120]]
    (s := ((Server.init [] 0).epollCtl 5 .EPOLLIN).epollCtl 6 .EPOLLIN) rfl (by decide) (by decide)
  obtain ⟨s', hin', hline, hregistered'⟩ := exists_epollin (s := s) 6 [[121]]
    (by rw [hregistered]; rfl) (by decide) (by decide)
  obtain ⟨t, hout, -⟩ := exists_epollout 5 (by rw [hregistered', hregistered]; rfl) hline
  have hown := h _ t (((haccept.snoc hin).snoc hin').snoc hout) _ _ [] rfl 5 [121] rfl
  exact absurd hown (by decide)

end EpollClassic
end CFunction
