import CFunction.Misc.Runs

/-!
# The PPP supervisor

`LTE/ppp_call1/ppp_call.c`: `main` with `pppd_start`, and `child_signal_handler`. A statement
that touches `pppd_status` is one step, and between any two steps the handler may reap a child.
What `system` calls and sleeps do outside the process is not part of the state; the children of
`system` are reaped by `system` itself.
-/

namespace CFunction
namespace PppCall

/-! ### Constants (`ppp_call.c:26-35`) -/

def PPP_START_TIMEOUT : Int := 120
def PING_COUNT : Int := 5

abbrev PPPD_STATUS_STOP : BitVec 32 := 0x1
abbrev PPPD_STATUS_START : BitVec 32 := 0x2
abbrev PPPD_STATUS_ONLINE : BitVec 32 := 0x4

/-- `pppd_ping_on` (`ppp_call.c:40`), which nothing changes. -/
def pppdPingOn : Bool := true

/-- The statement that the main thread executes next. -/
inductive Pc where
  /-- `pppd_status = PPPD_STATUS_START` in front of the loop (228). -/
  | setStart
  /-- `if(pppd_status & PPPD_STATUS_STOP)` at the top of an iteration (230). -/
  | top
  /-- `pppd_stop()` (231). -/
  | pppdStop
  /-- `pppd_status = PPPD_STATUS_START` after `pppd_stop` (232). -/
  | restart
  /-- `sleep(1); reset_module()` (233-234). -/
  | resetModule
  /-- `if(pppd_status & PPPD_STATUS_START)` (236). -/
  | testStart
  /-- `pppd_start` up to `pppd_exec` (102-109). -/
  | startKill
  /-- `fork` in `pppd_exec` (56-66). -/
  | pppdExec
  /-- `while(timeout > 0)` (116). -/
  | testTimeout
  /-- `access(PPP_LINK_FILE, F_OK)`, and `timeout--; sleep(1)` (117-121). -/
  | access
  /-- `if(pppd_status & PPPD_STATUS_STOP)` in `pppd_start` (122). -/
  | pollStop
  /-- `if(timeout <= 0)`, and `++pppd_link_num` (127-134). -/
  | timedOut
  /-- `open` of the link file (138-144). -/
  | openLink
  /-- `pppd_status = PPPD_STATUS_STOP` after a failed start (238). -/
  | startFailed
  /-- `pppd_status &= ~PPPD_STATUS_START` (240). -/
  | clearStart
  /-- `pppd_status |= PPPD_STATUS_ONLINE` (241). -/
  | setOnline
  /-- `if(pppd_status == PPPD_STATUS_ONLINE)` (245). -/
  | testOnline
  /-- `ping()`, and `error_num++` with its test, or `error_num = 0` (246-248, 255). -/
  | ping
  /-- `pppd_status = PPPD_STATUS_STOP; error_num = 0` (251-252). -/
  | pingStop
  /-- `sleep(2)` (260). -/
  | sleep
  deriving DecidableEq, Repr

structure Supervisor where
  pc : Pc
  status : BitVec 32
  timeout : Int
  linkNum : Int
  errorNum : Int
  deriving DecidableEq, Repr

/-- After `init_signal` and `pppd_prepare`. -/
def Supervisor.init : Supervisor := ⟨.setStart, 0, 0, 0, 0⟩

/-- One statement of the main thread. `ok` is the answer of the system call in it, if there is
one: `fork`, `access` and `open` succeed, `ping` returns zero. -/
def Supervisor.mainStep (s : Supervisor) (ok : Bool) : Supervisor :=
  match s.pc with
  | .setStart => { s with status := PPPD_STATUS_START, pc := .top }
  | .top => { s with pc := if s.status &&& PPPD_STATUS_STOP ≠ 0 then .pppdStop else .testStart }
  | .pppdStop => { s with pc := .restart }
  | .restart => { s with status := PPPD_STATUS_START, pc := .resetModule }
  | .resetModule => { s with pc := .testStart }
  | .testStart =>
    { s with pc := if s.status &&& PPPD_STATUS_START ≠ 0 then .startKill else .testOnline }
  | .startKill => { s with timeout := PPP_START_TIMEOUT, pc := .pppdExec }
  | .pppdExec => { s with pc := if ok then .testTimeout else .startFailed }
  | .testTimeout => { s with pc := if s.timeout > 0 then .access else .timedOut }
  | .access =>
    if ok then { s with pc := .timedOut } else { s with timeout := s.timeout - 1, pc := .pollStop }
  | .pollStop =>
    { s with pc := if s.status &&& PPPD_STATUS_STOP ≠ 0 then .startFailed else .testTimeout }
  | .timedOut =>
    if s.timeout ≤ 0 then { s with pc := .startFailed }
    else
      let linkNum := s.linkNum + 1
      { s with linkNum := if linkNum ≥ 10000 then 0 else linkNum, pc := .openLink }
  | .openLink => { s with pc := if ok then .clearStart else .startFailed }
  | .startFailed => { s with status := PPPD_STATUS_STOP, pc := .testOnline }
  | .clearStart => { s with status := s.status &&& ~~~PPPD_STATUS_START, pc := .setOnline }
  | .setOnline => { s with status := s.status ||| PPPD_STATUS_ONLINE, pc := .testOnline }
  | .testOnline => { s with pc := if s.status = PPPD_STATUS_ONLINE then .ping else .sleep }
  | .ping =>
    if pppdPingOn ∧ !ok then
      let errorNum := s.errorNum + 1
      { s with errorNum := errorNum, pc := if errorNum > PING_COUNT then .pingStop else .sleep }
    else { s with errorNum := 0, pc := .sleep }
  | .pingStop => { s with status := PPPD_STATUS_STOP, errorNum := 0, pc := .sleep }
  | .sleep => { s with pc := .top }

/-- The body of the loop in `child_signal_handler` (`ppp_call.c:185-193`). -/
def Supervisor.reap (s : Supervisor) : Supervisor := { s with status := PPPD_STATUS_STOP }

/-- What happens: the handler reaps a child, `pppd_exec` forks one, a ping is answered or not, or
another statement is executed. -/
inductive Event where
  | reap
  | fork
  | ping (answered : Bool)
  | stmt (pc : Pc)
  deriving DecidableEq, Repr

def eventOf (pc : Pc) (ok : Bool) : Event :=
  match pc with
  | .pppdExec => if ok then .fork else .stmt .pppdExec
  | .ping => .ping ok
  | pc => .stmt pc

inductive Step : Supervisor → Event → Supervisor → Prop
  | main {s : Supervisor} (ok : Bool) : Step s (eventOf s.pc ok) (s.mainStep ok)
  | handler {s : Supervisor} : Step s .reap s.reap

end PppCall
end CFunction
