import CFunction.Misc.CharArray
import CFunction.Misc.CInt
import CFunction.Misc.LittleEndian

/-!
# The default gateway

`net/gateway.c`: `get_default_gateway` asks the kernel for its routes over netlink, on a
little-endian host. `msg_buf` is the list of its bytes, a pointer into it an index, and an access
outside it has no result. What the system calls return is given: the list of `recv` results, an
error or a datagram each, and the names of the interfaces.
-/

namespace CFunction
namespace Gateway

open CString LittleEndian

abbrev GATEWAY_BUFSIZE : Nat := 1024

/-! ### From `linux/netlink.h` and `linux/rtnetlink.h` -/

abbrev NLMSG_ERROR : Nat := 2
abbrev NLMSG_DONE : Nat := 3
abbrev NLM_F_REQUEST : Nat := 1
abbrev NLM_F_MULTI : Nat := 2
abbrev NLM_F_DUMP : Nat := 0x300
abbrev RTM_NEWROUTE : Nat := 24
abbrev RTM_GETROUTE : Nat := 26
abbrev AF_INET : Nat := 2
abbrev RT_TABLE_MAIN : Nat := 254
abbrev RTA_DST : Nat := 1
abbrev RTA_OIF : Nat := 4
abbrev RTA_GATEWAY : Nat := 5
abbrev RTA_PREFSRC : Nat := 7

/-- `sizeof(struct nlmsghdr)`, `sizeof(struct rtmsg)` and `sizeof(struct rtattr)`. -/
abbrev NLMSGHDR_SIZE : Nat := 16
abbrev RTMSG_SIZE : Nat := 12
abbrev RTATTR_SIZE : Nat := 4

/-- A number as an `unsigned int`. -/
def toUnsigned (x : Int) : Nat := (x % 4294967296).toNat

/-- `NLMSG_ALIGN` and `RTA_ALIGN`: the next multiple of 4, as an `unsigned int`. -/
def align (len : Nat) : Nat := (len + 3) % 4294967296 / 4 * 4

def nlmsgLen (buf : Bytes) (hdr : Nat) : Option Nat := loadLE buf hdr 4
def nlmsgType (buf : Bytes) (hdr : Nat) : Option Nat := loadLE buf (hdr + 4) 2
def nlmsgFlags (buf : Bytes) (hdr : Nat) : Option Nat := loadLE buf (hdr + 6) 2
def nlmsgSeq (buf : Bytes) (hdr : Nat) : Option Nat := loadLE buf (hdr + 8) 4
def nlmsgPid (buf : Bytes) (hdr : Nat) : Option Nat := loadLE buf (hdr + 12) 4
def rtmFamily (buf : Bytes) (rtMsg : Nat) : Option Nat := loadLE buf rtMsg 1
def rtmTable (buf : Bytes) (rtMsg : Nat) : Option Nat := loadLE buf (rtMsg + 4) 1
def rtaLen (buf : Bytes) (rtAttr : Nat) : Option Nat := loadLE buf rtAttr 2
def rtaType (buf : Bytes) (rtAttr : Nat) : Option Nat := loadLE buf (rtAttr + 2) 2

/-- The four bytes at `RTA_DATA(rt_attr)`. -/
def rtaWord (buf : Bytes) (rtAttr : Nat) : Option Nat := loadLE buf (rtAttr + RTATTR_SIZE) 4

/-- `NLMSG_OK(hdr, len)` with `len` unsigned. -/
def nlmsgOk (buf : Bytes) (hdr len : Nat) : Option Bool :=
  if len < NLMSGHDR_SIZE then some false
  else do
    let n ← nlmsgLen buf hdr
    some (NLMSGHDR_SIZE ≤ n && n ≤ len)

/-- `RTA_OK(rt_attr, len)` with `len` an `int`. -/
def rtaOk (buf : Bytes) (rtAttr : Nat) (len : Int) : Option Bool :=
  if len < RTATTR_SIZE then some false
  else do
    let n ← rtaLen buf rtAttr
    some (RTATTR_SIZE ≤ n && (n : Int) ≤ len)

/-! ### `gateway.c` -/

abbrev IF_NAMESIZE : Nat := 16

/-- A name that `if_indextoname` writes: it fits `IF_NAMESIZE` bytes with its NUL. -/
structure IfName where
  name : Bytes
  zero_notMem : 0 ∉ name
  length_lt : name.length < IF_NAMESIZE

/-- `struct route_info` (`gateway.c:70-76`). -/
structure RouteInfo where
  ifName : CharArray IF_NAMESIZE
  gateway : Nat
  srcAddr : Nat
  dstAddr : Nat

/-- After the `memset` (`gateway.c:174`). -/
def RouteInfo.zero : RouteInfo := ⟨CharArray.zero IF_NAMESIZE, 0, 0, 0⟩

/-- The `while (1)` of `read_routes` (`gateway.c:83-103`), with `buf` moved on by `msgLen`
bytes. The call waits when no datagram is left. -/
def readLoop (seq pid : Int) : List (Option Bytes) → Bytes → Nat → Option (Int × Bytes)
  | [], _, _ => none
  | none :: _, buf, _ => some (-1, buf)
  | some datagram :: arrivals, buf, msgLen => do
    -- netlink drops what does not fit the count
    let received := datagram.take (GATEWAY_BUFSIZE - msgLen)
    let buf ← overwrite buf msgLen received
    if (← nlmsgOk buf msgLen received.length) = false then some (-1, buf)
    else
      let type ← nlmsgType buf msgLen
      if type = NLMSG_ERROR then some (-1, buf)
      else if type = NLMSG_DONE then some (msgLen, buf)
      else
        let flags ← nlmsgFlags buf msgLen
        let hdrSeq ← nlmsgSeq buf msgLen
        let hdrPid ← nlmsgPid buf msgLen
        let msgLen := msgLen + received.length
        if flags &&& NLM_F_MULTI = 0 then some (msgLen, buf)
        else if hdrSeq ≠ toUnsigned seq ∨ hdrPid ≠ toUnsigned pid then some (msgLen, buf)
        else readLoop seq pid arrivals buf msgLen

/-- `read_routes` (`gateway.c:78-105`). -/
def readRoutes (arrivals : List (Option Bytes)) (buf : Bytes) (seq pid : Int) :
    Option (Int × Bytes) := readLoop seq pid arrivals buf 0

/-- The `switch` (`gateway.c:122-136`). A failed `if_indextoname` writes nothing. -/
def parseAttr (ifIndexToName : Nat → Option IfName) (buf : Bytes) (rtAttr : Nat)
    (rtInfo : RouteInfo) : Option RouteInfo := do
  let type ← rtaType buf rtAttr
  if type = RTA_OIF then
    let index ← rtaWord buf rtAttr
    match ifIndexToName index with
    | some n => some { rtInfo with ifName := rtInfo.ifName.strncpy n.name }
    | none => some rtInfo
  else if type = RTA_GATEWAY then some { rtInfo with gateway := ← rtaWord buf rtAttr }
  else if type = RTA_PREFSRC then some { rtInfo with srcAddr := ← rtaWord buf rtAttr }
  else if type = RTA_DST then some { rtInfo with dstAddr := ← rtaWord buf rtAttr }
  else some rtInfo

/-- The loop over the attributes (`gateway.c:120-137`), for `fuel` rounds. -/
def parseAttrs (ifIndexToName : Nat → Option IfName) (buf : Bytes) :
    Nat → Nat → Int → RouteInfo → Option RouteInfo
  | 0, _, _, _ => none
  | fuel + 1, rtAttr, rtLen, rtInfo => do
    if (← rtaOk buf rtAttr rtLen) = false then some rtInfo
    else
      let rtInfo ← parseAttr ifIndexToName buf rtAttr rtInfo
      let step := align (← rtaLen buf rtAttr)
      parseAttrs ifIndexToName buf fuel (rtAttr + step) (toInt32 (rtLen - step)) rtInfo

/-- `parse_routes` (`gateway.c:107-139`): what it returns and what it leaves in `rt_info`. Each
attribute has four bytes or more, so that `GATEWAY_BUFSIZE` rounds see all of them. -/
def parseRoutes (ifIndexToName : Nat → Option IfName) (buf : Bytes) (hdr : Nat)
    (rtInfo : RouteInfo) : Option (Int × RouteInfo) := do
  let rtMsg := hdr + NLMSGHDR_SIZE
  if (← rtmFamily buf rtMsg) ≠ AF_INET then some (-1, rtInfo)
  else if (← rtmTable buf rtMsg) ≠ RT_TABLE_MAIN then some (-1, rtInfo)
  else
    let len ← nlmsgLen buf hdr
    let rtLen := toInt32 (len - (NLMSGHDR_SIZE + RTMSG_SIZE : Nat))
    let rtInfo ← parseAttrs ifIndexToName buf GATEWAY_BUFSIZE (rtMsg + RTMSG_SIZE) rtLen rtInfo
    some (0, rtInfo)

/-- The number in decimal. -/
def decimal (n : Nat) : Bytes := (Nat.toDigits 10 n).map ascii

/-- `inet_ntoa`: the bytes of the address in the order of memory. -/
def inetNtoa (addr : Nat) : Bytes :=
  [ascii '.'].intercalate ((toLE 4 addr).map fun b => decimal b.toNat)

/-- The loop over the messages (`gateway.c:172-185`), for `fuel` rounds: the return value of
`get_default_gateway`, and the text that it writes to `gateway` if any. -/
def routesLoop (ifIndexToName : Nat → Option IfName) (ethName buf : Bytes) :
    Nat → Nat → Int → Option (Int × Option Bytes)
  | 0, _, _ => none
  | fuel + 1, nlmsg, len => do
    if (← nlmsgOk buf nlmsg (toUnsigned len)) = false then some (-1, none)
    else
      let (ret, rtInfo) ← parseRoutes ifIndexToName buf nlmsg .zero
      let name ← rtInfo.ifName.read
      if ret = 0 ∧ name = ethName ∧ rtInfo.dstAddr = 0 ∧ rtInfo.gateway ≠ 0 then
        some (0, some (inetNtoa rtInfo.gateway))
      else
        let step := align (← nlmsgLen buf nlmsg)
        routesLoop ifIndexToName ethName buf fuel (nlmsg + step) (toInt32 (len - step))

/-- The header that `get_default_gateway` writes into `msg_buf` (`gateway.c:155-160`). -/
def request (msgSeq pid : Int) : Option Bytes := do
  let buf := List.replicate GATEWAY_BUFSIZE 0
  let buf ← storeLE buf 0 4 (NLMSGHDR_SIZE + RTMSG_SIZE)
  let buf ← storeLE buf 4 2 RTM_GETROUTE
  let buf ← storeLE buf 6 2 (NLM_F_DUMP ||| NLM_F_REQUEST)
  let buf ← storeLE buf 8 4 (toUnsigned msgSeq)
  storeLE buf 12 4 (toUnsigned pid)

/-- The request, and what `read_routes` returns as it is called (`gateway.c:155-170`). `sent` is
the result of `send`. -/
def askRoutes (sent pid : Int) (arrivals : List (Option Bytes)) : Option (Int × Bytes) := do
  let msgSeq := 0
  let buf ← request msgSeq pid
  let msgSeq := toInt32 (msgSeq + 1)
  if sent < 0 then some (-1, buf) else readRoutes arrivals buf msgSeq pid

/-- `get_default_gateway` (`gateway.c:141-189`). Each message has 16 bytes or more, so that
`GATEWAY_BUFSIZE` rounds see all of them. -/
def getDefaultGateway (sock sent pid : Int) (arrivals : List (Option Bytes))
    (ifIndexToName : Nat → Option IfName) (ethName : Bytes) : Option (Int × Option Bytes) :=
  if sock < 0 then some (-1, none)
  else do
    let (len, buf) ← askRoutes sent pid arrivals
    if len < 0 then some (-1, none)
    else routesLoop ifIndexToName ethName buf GATEWAY_BUFSIZE 0 len

end Gateway
end CFunction
