import CFunction.Net.Proofs.DumpParsing

/-!
# How much of a dump is read

`read_routes` compares the header of each datagram with the sequence number that it is given,
and `get_default_gateway` gives it the number behind the one of its request.
-/

namespace CFunction
namespace Gateway

open CString LittleEndian

variable {ifIndexToName : Nat → Option IfName} {buf front : Bytes} {seq portid : Nat}

/-! ### Headers -/

/-- The fields of the header at `hdr`. -/
structure HeaderAt (buf : Bytes) (hdr len type flags seq pid : Nat) : Prop where
  len_eq : nlmsgLen buf hdr = some len
  type_eq : nlmsgType buf hdr = some type
  flags_eq : nlmsgFlags buf hdr = some flags
  seq_eq : nlmsgSeq buf hdr = some seq
  pid_eq : nlmsgPid buf hdr = some pid

theorem headerAt {hdr len type flags seq pid : Nat}
    (h : BytesAt buf hdr (encodeHeader len type flags seq pid)) (hlen : len < 4294967296)
    (htype : type < 65536) (hflags : flags < 65536) (hseq : seq < 4294967296)
    (hpid : pid < 4294967296) : HeaderAt buf hdr len type flags seq pid where
  len_eq := h.field hlen
  type_eq := h.skip.field htype
  flags_eq := h.skip.skip.field hflags
  seq_eq := h.skip.skip.skip.field hseq
  pid_eq := h.skip.skip.skip.skip.number hpid

/-- `NLMSG_OK` on a header whose message was received whole. -/
theorem nlmsgOk_header {hdr len type flags seq pid n : Nat}
    (h : HeaderAt buf hdr len type flags seq pid) (hsize : NLMSGHDR_SIZE ≤ len) (hn : len ≤ n) :
    nlmsgOk buf hdr n = some true := by
  rw [nlmsgOk, if_neg (Nat.not_lt.2 (Nat.le_trans hsize hn)), h.len_eq]
  simp only [Option.bind_eq_bind, Option.bind_some, hsize, hn, decide_true, Bool.and_self]

/-- The request that `get_default_gateway` sends. -/
theorem request_eq (msgSeq pid : Int) :
    ∃ buf, request msgSeq pid = some buf ∧ buf.length = GATEWAY_BUFSIZE ∧
      BytesAt buf 0 (encodeHeader (NLMSGHDR_SIZE + RTMSG_SIZE) RTM_GETROUTE
        (NLM_F_DUMP ||| NLM_F_REQUEST) (toUnsigned msgSeq) (toUnsigned pid)) := by
  have hzeros : BytesAt (List.replicate GATEWAY_BUFSIZE 0) 0 [] :=
    bytesAt_zero [] (List.replicate GATEWAY_BUFSIZE 0)
  obtain ⟨buf₁, hlen, h₁, hsize₁⟩ := bytesAt_storeLE 0 4 (NLMSGHDR_SIZE + RTMSG_SIZE) hzeros rfl
    List.length_replicate (by decide)
  obtain ⟨buf₂, htype, h₂, hsize₂⟩ := bytesAt_storeLE 4 2 RTM_GETROUTE h₁ rfl hsize₁ (by decide)
  obtain ⟨buf₃, hflags, h₃, hsize₃⟩ :=
    bytesAt_storeLE 6 2 (NLM_F_DUMP ||| NLM_F_REQUEST) h₂ rfl hsize₂ (by decide)
  obtain ⟨buf₄, hseq, h₄, hsize₄⟩ :=
    bytesAt_storeLE 8 4 (toUnsigned msgSeq) h₃ rfl hsize₃ (by decide)
  obtain ⟨buf₅, hpid, h₅, hsize₅⟩ :=
    bytesAt_storeLE 12 4 (toUnsigned pid) h₄ rfl hsize₄ (by decide)
  refine ⟨buf₅, ?_, hsize₅, ?_⟩
  · rw [request]
    simp only [hlen, htype, hflags, hseq, Option.bind_eq_bind, Option.bind_some]
    exact hpid
  · simpa only [encodeHeader, List.nil_append, List.append_assoc] using h₅

theorem requestCarries (pid : Int) : RequestCarries pid 0 (toUnsigned pid) := by
  obtain ⟨buf, hbuf, -, hat⟩ := request_eq 0 pid
  have hheader := headerAt hat (by decide) (by decide) (by decide) (toUnsigned_lt 0)
    (toUnsigned_lt pid)
  exact ⟨buf, hbuf, hheader.seq_eq, hheader.pid_eq⟩

theorem RequestCarries.eq {pid : Int} (h : RequestCarries pid seq portid) :
    seq = 0 ∧ portid = toUnsigned pid := by
  obtain ⟨buf, hbuf, hseq, hpid⟩ := h
  obtain ⟨buf', hbuf', hseq', hpid'⟩ := requestCarries pid
  obtain rfl := Option.some.inj (hbuf.symm.trans hbuf')
  exact ⟨Option.some.inj (hseq.symm.trans hseq'), Option.some.inj (hpid.symm.trans hpid')⟩

/-! ### The receive loop -/

/-- Nothing is cut off a datagram that fits behind the ones before. -/
theorem received_eq {data : Bytes} (hroom : front.length + data.length ≤ GATEWAY_BUFSIZE) :
    data.take (GATEWAY_BUFSIZE - front.length) = data :=
  List.take_of_length_le (Nat.le_sub_of_add_le' hroom)

theorem recv_eq {data : Bytes} (hfront : BytesAt buf 0 front) (hbuf : buf.length = GATEWAY_BUFSIZE)
    (hroom : front.length + data.length ≤ GATEWAY_BUFSIZE) :
    ∃ buf', overwrite buf front.length (data.take (GATEWAY_BUFSIZE - front.length)) = some buf' ∧
      BytesAt buf' 0 (front ++ data) ∧ buf'.length = GATEWAY_BUFSIZE := by
  rw [received_eq hroom, ← hbuf]
  apply bytesAt_overwrite hfront
  rwa [hbuf]

section
variable {s p : Int} {rest : List (Option Bytes)}

/-- A datagram of the dump: the loop goes on if its first header has the numbers that
`read_routes` is given. -/
theorem readLoop_datagram (rest : List (Option Bytes)) (d : Datagram) (hfront : BytesAt buf 0 front)
    (hbuf : buf.length = GATEWAY_BUFSIZE)
    (hroom : front.length + (encodeAll seq portid d.1).length ≤ GATEWAY_BUFSIZE)
    (hseq : seq < 4294967296) (hpid : portid < 4294967296) :
    ∃ buf', BytesAt buf' 0 (front ++ encodeAll seq portid d.1) ∧
      buf'.length = GATEWAY_BUFSIZE ∧
      readLoop s p (some (encodeAll seq portid d.1) :: rest) buf front.length =
        if seq = toUnsigned s ∧ portid = toUnsigned p then
          readLoop s p rest buf' (front ++ encodeAll seq portid d.1).length
        else some (((front ++ encodeAll seq portid d.1).length : Int), buf') := by
  obtain ⟨buf', hrecv, hat, hbuf'⟩ := recv_eq hfront hbuf hroom
  refine ⟨buf', hat, hbuf', ?_⟩
  obtain ⟨m, ms, hms⟩ := List.exists_cons_of_ne_nil d.2
  have hcons : encodeAll seq portid d.1 = m.encode seq portid ++ encodeAll seq portid ms := by
    rw [hms]
    rfl
  have hm : BytesAt buf' front.length (m.encode seq portid) := by
    rw [hcons] at hat
    simpa using hat.right.left
  have hle : (m.encode seq portid).length ≤ (encodeAll seq portid d.1).length := by
    rw [hcons, List.length_append]
    exact Nat.le_add_right _ _
  have hlen : NLMSGHDR_SIZE + RTMSG_SIZE + m.encodeAttrs.length < 4294967296 := by
    rw [← m.encode_length seq portid]
    apply Nat.lt_of_le_of_lt _ (by decide : GATEWAY_BUFSIZE < 4294967296)
    omega
  have hheader := headerAt hm.left hlen (by decide) m.flags.toNat_lt hseq hpid
  have hok : nlmsgOk buf' front.length (encodeAll seq portid d.1).length = some true :=
    nlmsgOk_encode hm (by rw [hbuf']; decide) hle
  rw [readLoop, hrecv, received_eq hroom]
  simp only [Option.bind_eq_bind, Option.bind_some, hok, Bool.true_eq_false, if_false,
    hheader.type_eq, hheader.flags_eq, hheader.seq_eq, hheader.pid_eq, if_neg m.multi]
  rw [if_neg (by decide : ¬ RTM_NEWROUTE = NLMSG_ERROR),
    if_neg (by decide : ¬ RTM_NEWROUTE = NLMSG_DONE), List.length_append]
  by_cases hsame : seq = toUnsigned s ∧ portid = toUnsigned p
  · have hgo : ¬ (seq ≠ toUnsigned s ∨ portid ≠ toUnsigned p) := by
      rw [not_or]
      exact ⟨not_not_intro hsame.1, not_not_intro hsame.2⟩
    rw [if_neg hgo, if_pos hsame]
  · rw [if_pos (not_and_or.1 hsame), if_neg hsame]

/-- The datagram that starts with `NLMSG_DONE` ends the loop. -/
theorem readLoop_done (done : DoneDatagram) (hfront : BytesAt buf 0 front)
    (hbuf : buf.length = GATEWAY_BUFSIZE)
    (hroom : front.length + done.encode.length ≤ GATEWAY_BUFSIZE) :
    ∃ buf', BytesAt buf' 0 front ∧ buf'.length = GATEWAY_BUFSIZE ∧
      readLoop s p (some done.encode :: rest) buf front.length =
        some ((front.length : Int), buf') := by
  obtain ⟨buf', hrecv, hat, hbuf'⟩ := recv_eq hfront hbuf hroom
  refine ⟨buf', hat.left, hbuf', ?_⟩
  have hlength : done.encode.length = NLMSGHDR_SIZE + done.body.length + done.others.length := by
    simp only [DoneDatagram.encode, List.length_append, encodeHeader_length, Nat.add_assoc]
  have hdone : BytesAt buf' front.length done.encode := by
    simpa using hat.right
  have hlen : NLMSGHDR_SIZE + done.body.length < 4294967296 := by
    apply Nat.lt_of_le_of_lt _ (by decide : GATEWAY_BUFSIZE < 4294967296)
    omega
  have hheader := headerAt hdone.left hlen (by decide) done.flags.toNat_lt done.seq.toNat_lt
    done.pid.toNat_lt
  have hok : nlmsgOk buf' front.length done.encode.length = some true := by
    apply nlmsgOk_header hheader (Nat.le_add_right _ _)
    rw [hlength]
    exact Nat.le_add_right _ _
  rw [readLoop, hrecv, received_eq hroom]
  simp only [Option.bind_eq_bind, Option.bind_some, hok, Bool.true_eq_false, if_false,
    hheader.type_eq]
  rfl

end

section
variable {pid : Int} {dump : List Datagram} {done : DoneDatagram} {later : List (Option Bytes)}

theorem encodeAll_cons (d : Datagram) (dump : List Datagram) :
    encodeAll seq portid (messages (d :: dump)) =
      encodeAll seq portid d.1 ++ encodeAll seq portid (messages dump) := by
  rw [messages, List.flatMap_cons, encodeAll, List.flatMap_append]
  rfl

theorem encodeAll_length_pos (seq portid : Nat) (d : Datagram) :
    0 < (encodeAll seq portid d.1).length := by
  obtain ⟨m, ms, hms⟩ := List.exists_cons_of_ne_nil d.2
  have hle := mul_length_le_flatMap (header_le_encode_length seq portid) d.1
  rw [hms, List.length_cons] at hle
  rw [encodeAll, hms]
  apply Nat.lt_of_lt_of_le _ hle
  exact Nat.mul_pos (by decide) (Nat.succ_pos _)

/-- A second datagram adds messages. -/
theorem encodeAll_take_one_lt (seq portid : Nat) (h : 1 < dump.length) :
    (encodeAll seq portid (messages (dump.take 1))).length <
      (encodeAll seq portid (messages dump)).length := by
  match dump, h with
  | d₁ :: d₂ :: dump, _ =>
    have hpos := encodeAll_length_pos seq portid d₂
    have hfirst : List.take 1 (d₁ :: d₂ :: dump) = [d₁] := rfl
    have hnone : encodeAll seq portid (messages []) = [] := rfl
    rw [hfirst]
    simp only [encodeAll_cons, List.length_append, hnone, List.length_nil]
    omega

theorem readLoop_whole {s p : Int} (later : List (Option Bytes)) (hseq : seq = toUnsigned s)
    (hpid : portid = toUnsigned p)
    (hfront : BytesAt buf 0 front) (hbuf : buf.length = GATEWAY_BUFSIZE)
    (hroom : front.length + (encodeAll seq portid (messages dump)).length + done.encode.length ≤
      GATEWAY_BUFSIZE) :
    ∃ buf', BytesAt buf' 0 (front ++ encodeAll seq portid (messages dump)) ∧
      buf'.length = GATEWAY_BUFSIZE ∧
      readLoop s p (arrivals seq portid dump done later) buf front.length =
        some (((front ++ encodeAll seq portid (messages dump)).length : Int), buf') := by
  induction dump generalizing buf front with
  | nil =>
    have hnone : front ++ encodeAll seq portid (messages []) = front := List.append_nil front
    rw [hnone]
    exact readLoop_done done hfront hbuf hroom
  | cons d dump ih =>
    rw [encodeAll_cons, List.length_append] at hroom
    rw [encodeAll_cons, ← List.append_assoc]
    have hfirst : front.length + (encodeAll seq portid d.1).length ≤ GATEWAY_BUFSIZE := by omega
    obtain ⟨buf₁, hat₁, hbuf₁, hloop⟩ := readLoop_datagram (s := s) (p := p)
      (arrivals seq portid dump done later) d hfront hbuf hfirst (hseq ▸ toUnsigned_lt s)
      (hpid ▸ toUnsigned_lt p)
    have hroom₁ : (front ++ encodeAll seq portid d.1).length +
        (encodeAll seq portid (messages dump)).length + done.encode.length ≤ GATEWAY_BUFSIZE := by
      rw [List.length_append]
      omega
    obtain ⟨buf', hat, hbuf', hwhole⟩ := ih hat₁ hbuf₁ hroom₁
    refine ⟨buf', hat, hbuf', ?_⟩
    rw [← hwhole]
    rw [if_pos ⟨hseq, hpid⟩] at hloop
    exact hloop

/-- Given the numbers of the request, `read_routes` reads the whole dump. -/
theorem readRoutes_whole (s p : Int) (hbuf : buf.length = GATEWAY_BUFSIZE)
    (hsize : (encodeAll (toUnsigned s) (toUnsigned p) (messages dump)).length +
      done.encode.length ≤ GATEWAY_BUFSIZE) :
    ∃ buf', BytesAt buf' 0 (encodeAll (toUnsigned s) (toUnsigned p) (messages dump)) ∧
      readRoutes (arrivals (toUnsigned s) (toUnsigned p) dump done later) buf s p =
        some (((encodeAll (toUnsigned s) (toUnsigned p) (messages dump)).length : Int), buf') := by
  have hroom : ([] : Bytes).length + (encodeAll (toUnsigned s) (toUnsigned p)
      (messages dump)).length + done.encode.length ≤ GATEWAY_BUFSIZE := by
    rwa [List.length_nil, Nat.zero_add]
  obtain ⟨buf', hat, -, hloop⟩ :=
    readLoop_whole later rfl rfl (bytesAt_zero [] buf) hbuf hroom
  exact ⟨buf', hat, hloop⟩

/-- As `get_default_gateway` calls it, `read_routes` reads the first datagram only: the number
that it is given is not the number of the request. -/
theorem askRoutes_eq (sent : Nat) (later : List (Option Bytes))
    (hreq : RequestCarries pid seq portid)
    (hsize : (encodeAll seq portid (messages dump)).length + done.encode.length ≤
      GATEWAY_BUFSIZE) :
    ∃ buf, BytesAt buf 0 (encodeAll seq portid (messages (dump.take 1))) ∧
      buf.length = GATEWAY_BUFSIZE ∧
      askRoutes sent pid (arrivals seq portid dump done later) =
        some (((encodeAll seq portid (messages (dump.take 1))).length : Int), buf) := by
  obtain ⟨rfl, rfl⟩ := hreq.eq
  obtain ⟨buf, hrequest, hbuf, -⟩ := request_eq 0 pid
  have hask : ∀ arrived, askRoutes sent pid arrived =
      readLoop (toInt32 (0 + 1)) pid arrived buf ([] : Bytes).length := by
    intro arrived
    rw [askRoutes, hrequest]
    simp only [Option.bind_eq_bind, Option.bind_some]
    rw [if_neg (Int.not_lt.2 (Int.natCast_nonneg sent)), readRoutes]
    rfl
  rw [hask]
  cases dump with
  | nil => exact readLoop_done done (bytesAt_zero [] buf) hbuf (by simpa using hsize)
  | cons d dump =>
    rw [encodeAll_cons, List.length_append] at hsize
    have hroom : ([] : Bytes).length + (encodeAll 0 (toUnsigned pid) d.1).length ≤
        GATEWAY_BUFSIZE := by
      rw [List.length_nil]
      omega
    obtain ⟨buf', hat, hbuf', hloop⟩ := readLoop_datagram (s := toInt32 (0 + 1)) (p := pid)
      (arrivals 0 (toUnsigned pid) dump done later) d (bytesAt_zero [] buf) hbuf hroom (by decide)
      (toUnsigned_lt pid)
    have hother : ¬ ((0 : Nat) = toUnsigned (toInt32 (0 + 1)) ∧ toUnsigned pid = toUnsigned pid) :=
      fun hsame => absurd hsame.1 (by decide)
    rw [if_neg hother] at hloop
    have hfirst : encodeAll 0 (toUnsigned pid) (messages (List.take 1 (d :: dump))) =
        [] ++ encodeAll 0 (toUnsigned pid) d.1 := by
      rw [List.take_succ_cons, List.take_zero, encodeAll_cons]
      exact List.append_nil _
    rw [hfirst]
    exact ⟨buf', hat, hbuf', hloop⟩

/-- `get_default_gateway` finds the first default route of the first datagram. -/
theorem getDefaultGateway_eq (ifIndexToName : Nat → Option IfName) (ethName : Bytes)
    (sock sent : Nat) (later : List (Option Bytes)) (hreq : RequestCarries pid seq portid)
    (hsize : (encodeAll seq portid (messages dump)).length + done.encode.length ≤
      GATEWAY_BUFSIZE) :
    getDefaultGateway sock sent pid (arrivals seq portid dump done later) ifIndexToName ethName =
      some (answer (defaultRoute ifIndexToName ethName (messages (dump.take 1)))) := by
  obtain ⟨buf, hat, hbuf, hask⟩ := askRoutes_eq sent later hreq hsize
  have hroom := hat.le_length
  have hfuel : (messages (dump.take 1)).length < GATEWAY_BUFSIZE := by
    have hle := mul_length_le_flatMap (header_le_encode_length seq portid)
      (messages (dump.take 1))
    rw [← encodeAll] at hle
    simp only [hbuf, NLMSGHDR_SIZE, RTMSG_SIZE, GATEWAY_BUFSIZE] at hle hroom ⊢
    omega
  rw [getDefaultGateway, if_neg (Int.not_lt.2 (Int.natCast_nonneg sock)), hask]
  simp only [Option.bind_eq_bind, Option.bind_some]
  rw [if_neg (Int.not_lt.2 (Int.natCast_nonneg _))]
  exact routesLoop_eq hat hfuel (Nat.le_of_eq hbuf)

theorem answer_eq_absent_iff {route : Option RouteMsg} :
    answer route = (-1, none) ↔ route = none := by
  cases route with
  | some m => simp [answer]
  | none => simp [answer]

/-- The dump is read to its end exactly when one datagram at most comes before the one that
starts with `NLMSG_DONE`. -/
theorem reads_whole_dump_iff (ifIndexToName : Nat → Option IfName) (ethName : Bytes)
    (sock sent : Nat) (hreq : RequestCarries pid seq portid) (dump : List Datagram)
    (done : DoneDatagram) (later : List (Option Bytes))
    (hsize : (encodeAll seq portid (messages dump)).length + done.encode.length ≤
      GATEWAY_BUFSIZE) :
    ReadsWholeDump ifIndexToName ethName sock sent pid seq portid dump done later ↔
      dump.length ≤ 1 := by
  obtain ⟨buf, hat, -, hask⟩ := askRoutes_eq sent later hreq hsize
  have hgateway := getDefaultGateway_eq ifIndexToName ethName sock sent later hreq hsize
  constructor
  · intro h
    obtain ⟨buf', hwhole, -⟩ := h.read
    have hlength := (Prod.mk.inj (Option.some.inj (hask.symm.trans hwhole))).1
    by_contra hmore
    exact Nat.ne_of_lt (encodeAll_take_one_lt seq portid (Nat.lt_of_not_le hmore))
      (Int.natCast_inj.1 hlength)
  · intro hone
    rw [List.take_of_length_le hone] at hat hask hgateway
    refine ⟨⟨buf, hask, hat⟩, ?_, ?_⟩
    · intro m hm
      rw [hgateway, hm]
      rfl
    · rw [hgateway, Option.some.injEq, answer_eq_absent_iff, defaultRoute_eq_none_iff]

end

/-! ### A dump in two datagrams -/

/-- The name of interface 3. -/
def wlan0 (index : Nat) : Option IfName :=
  if index = 3 then some ⟨text "wlan0", by decide, by decide⟩ else none

/-- A route of the main table with the attributes. -/
def mainRoute (attrs : List RtAttr) : RouteMsg :=
  ⟨2, by decide, 2, CharArray.zero 3, 254, CharArray.zero 7, attrs⟩

def outWlan0 : RtAttr := ⟨4, [3, 0, 0, 0], by decide, by decide⟩

/-- The route to 192.168.1.0. -/
def toNetwork : RouteMsg :=
  mainRoute [outWlan0, ⟨1, [192, 168, 1, 0], by decide, by decide⟩]

/-- The route over 192.168.1.1. -/
def overGateway : RouteMsg :=
  mainRoute [outWlan0, ⟨5, [192, 168, 1, 1], by decide, by decide⟩]

def doneDatagram : DoneDatagram := ⟨2, 0, 1000, [0, 0, 0, 0], []⟩

/-- Both routes in one datagram. -/
theorem reads_whole_dump_iff_one :
    ReadsWholeDump wlan0 (text "wlan0") 3 28 1000 0 1000
      [⟨[toNetwork, overGateway], List.cons_ne_nil _ _⟩] doneDatagram [] :=
  (reads_whole_dump_iff wlan0 (text "wlan0") 3 28 (requestCarries 1000) _ doneDatagram []
    (by decide)).2 (Nat.le_refl 1)

def twoDatagrams : List Datagram :=
  [⟨[toNetwork], List.cons_ne_nil _ _⟩, ⟨[overGateway], List.cons_ne_nil _ _⟩]

/-- The same routes in two datagrams: the gateway is in the second, and is not found. -/
theorem second_datagram_unread :
    defaultRoute wlan0 (text "wlan0") (messages twoDatagrams) = some overGateway ∧
    getDefaultGateway 3 28 1000 (arrivals 0 1000 twoDatagrams doneDatagram []) wlan0
      (text "wlan0") = some (-1, none) ∧
    ¬ ReadsWholeDump wlan0 (text "wlan0") 3 28 1000 0 1000 twoDatagrams doneDatagram [] := by
  have hnetwork : ¬ toNetwork.IsDefault wlan0 (text "wlan0") := by decide
  have hroute : defaultRoute wlan0 (text "wlan0") (messages twoDatagrams) = some overGateway :=
    (defaultRoute_cons_of_neg _ hnetwork).trans (defaultRoute_cons_of_pos _ (by decide))
  have hfirst : defaultRoute wlan0 (text "wlan0") (messages (twoDatagrams.take 1)) = none :=
    defaultRoute_cons_of_neg _ hnetwork
  have hsize : (encodeAll 0 1000 (messages twoDatagrams)).length + doneDatagram.encode.length ≤
      GATEWAY_BUFSIZE := by decide
  have hgateway := getDefaultGateway_eq wlan0 (text "wlan0") 3 28 [] (requestCarries 1000) hsize
  rw [hfirst] at hgateway
  refine ⟨hroute, hgateway, fun h => ?_⟩
  have hfound := h.found overGateway hroute
  cases hfound.symm.trans hgateway

end Gateway
end CFunction
