import CFunction.Net.Gateway

/-!
# A dump of the routing table

What the kernel answers, as route messages with their attributes instead of bytes, how it is
put on the wire, and which gateway it tells of.
-/

namespace CFunction
namespace Gateway

open CString LittleEndian

/-! ### Route messages -/

/-- A route attribute. The ones with a number or an address have room for it. -/
structure RtAttr where
  type : UInt16
  payload : Bytes
  wide : type.toNat ∈ [RTA_OIF, RTA_GATEWAY, RTA_PREFSRC, RTA_DST] → 4 ≤ payload.length
  short : RTATTR_SIZE + payload.length < 65536

/-- A message of a multi-part answer. `lens` and `others` are the fields of `struct rtmsg` around
the table. -/
structure RouteMsg where
  flags : UInt16
  multi : flags.toNat &&& NLM_F_MULTI ≠ 0
  family : UInt8
  lens : CharArray 3
  table : UInt8
  others : CharArray 7
  attrs : List RtAttr

/-- The messages of one datagram: at least one. -/
abbrev Datagram := { ms : List RouteMsg // ms ≠ [] }

/-- A datagram that starts with an `NLMSG_DONE` message. -/
structure DoneDatagram where
  flags : UInt16
  seq : UInt32
  pid : UInt32
  body : Bytes
  others : Bytes

/-! ### On the wire -/

/-- An attribute ends at a multiple of 4. -/
def RtAttr.encode (a : RtAttr) : Bytes :=
  let len := RTATTR_SIZE + a.payload.length
  toLE 2 len ++ (toLE 2 a.type.toNat ++ (a.payload ++ List.replicate (align len - len) 0))

def encodeHeader (len type flags seq pid : Nat) : Bytes :=
  toLE 4 len ++ (toLE 2 type ++ (toLE 2 flags ++ (toLE 4 seq ++ toLE 4 pid)))

def RouteMsg.encodeAttrs (m : RouteMsg) : Bytes := m.attrs.flatMap RtAttr.encode

def RouteMsg.encode (seq pid : Nat) (m : RouteMsg) : Bytes :=
  encodeHeader (NLMSGHDR_SIZE + RTMSG_SIZE + m.encodeAttrs.length) RTM_NEWROUTE m.flags.toNat
      seq pid ++
    (toLE 1 m.family.toNat ++ (m.lens.bytes ++ (toLE 1 m.table.toNat ++ (m.others.bytes ++
      m.encodeAttrs))))

def encodeAll (seq pid : Nat) (ms : List RouteMsg) : Bytes := ms.flatMap (RouteMsg.encode seq pid)

def DoneDatagram.encode (d : DoneDatagram) : Bytes :=
  encodeHeader (NLMSGHDR_SIZE + d.body.length) NLMSG_DONE d.flags.toNat d.seq.toNat d.pid.toNat ++
    (d.body ++ d.others)

/-! ### The gateway of a dump -/

/-- The number or address in an attribute, as it stands in memory. -/
def RtAttr.word (a : RtAttr) : Nat := ofLE (a.payload.take 4)

/-- The word of an attribute of the type. -/
def RtAttr.wordOf (type : Nat) (a : RtAttr) : Option Nat :=
  if a.type.toNat = type then some a.word else none

/-- The interface that the attribute names, if it has a name. -/
def RtAttr.interface (ifIndexToName : Nat → Option IfName) (a : RtAttr) : Option IfName :=
  (a.wordOf RTA_OIF).bind ifIndexToName

/-- What the last attribute says that says something. -/
def RouteMsg.last {α : Type} (m : RouteMsg) (f : RtAttr → Option α) : Option α :=
  m.attrs.reverse.findSome? f

/-- The address of the type, 0 without one. -/
def RouteMsg.address (m : RouteMsg) (type : Nat) : Nat := (m.last (RtAttr.wordOf type)).getD 0

/-- The name of the interface, empty without one. -/
def RouteMsg.interface (ifIndexToName : Nat → Option IfName) (m : RouteMsg) : Bytes :=
  ((m.last (RtAttr.interface ifIndexToName)).map IfName.name).getD []

/-- A route of the main table to destination 0 over the interface, with a gateway. -/
def RouteMsg.IsDefault (ifIndexToName : Nat → Option IfName) (ethName : Bytes) (m : RouteMsg) :
    Prop :=
  m.family.toNat = AF_INET ∧ m.table.toNat = RT_TABLE_MAIN ∧
    m.interface ifIndexToName = ethName ∧ m.address RTA_DST = 0 ∧ m.address RTA_GATEWAY ≠ 0

instance (ifIndexToName : Nat → Option IfName) (ethName : Bytes) :
    DecidablePred (RouteMsg.IsDefault ifIndexToName ethName) :=
  fun _ => inferInstanceAs (Decidable (_ ∧ _))

/-- The first such route. -/
def defaultRoute (ifIndexToName : Nat → Option IfName) (ethName : Bytes) (ms : List RouteMsg) :
    Option RouteMsg := ms.find? fun m => m.IsDefault ifIndexToName ethName

/-- What the kernel copies from the header of the request into its answer. -/
def RequestCarries (pid : Int) (seq portid : Nat) : Prop :=
  ∃ buf, request 0 pid = some buf ∧ nlmsgSeq buf 0 = some seq ∧ nlmsgPid buf 0 = some portid

/-- The messages of all datagrams of the dump. -/
def messages (dump : List Datagram) : List RouteMsg := dump.flatMap Subtype.val

/-- The results of `recv`: the datagrams of the dump, the one with `NLMSG_DONE`, and more. -/
def arrivals (seq pid : Nat) (dump : List Datagram) (done : DoneDatagram)
    (later : List (Option Bytes)) : List (Option Bytes) :=
  dump.map (fun d => some (encodeAll seq pid d.1)) ++ some done.encode :: later

/-- A dump is read to its end: `read_routes` leaves all its messages in the buffer, and
`get_default_gateway` finds the first default route among them. -/
structure ReadsWholeDump (ifIndexToName : Nat → Option IfName) (ethName : Bytes)
    (sock sent : Nat) (pid : Int) (seq portid : Nat) (dump : List Datagram) (done : DoneDatagram)
    (later : List (Option Bytes)) : Prop where
  read : ∃ buf, askRoutes sent pid (arrivals seq portid dump done later) =
      some (((encodeAll seq portid (messages dump)).length : Int), buf) ∧
    BytesAt buf 0 (encodeAll seq portid (messages dump))
  found : ∀ m, defaultRoute ifIndexToName ethName (messages dump) = some m →
    getDefaultGateway sock sent pid (arrivals seq portid dump done later) ifIndexToName ethName =
      some (0, some (inetNtoa (m.address RTA_GATEWAY)))
  absent_iff : getDefaultGateway sock sent pid (arrivals seq portid dump done later)
      ifIndexToName ethName = some (-1, none) ↔
    ∀ m ∈ messages dump, ¬ m.IsDefault ifIndexToName ethName

end Gateway
end CFunction
