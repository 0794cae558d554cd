import EltexSystems.Lib.CString
import EltexSystems.Lib.Lts

/-!
# The driver process of `taxi_control/main.c`

`driverIter` is one pass of `driver_loop` from the return of `poll`: the timer block, the hang-up
test and the handling of one message.  The timer descriptor is the deadline, in nanoseconds of the
monotonic clock, of a timer that is armed or has expired without having been read; it counts down
exactly and its calls succeed.  Datagrams are handled at one moment, no earlier than the moment
`poll` looked at the descriptors.
-/

namespace EltexSystems

open CStr

def MSGSZ : ℕ := 256

def nsPerSec : ℕ := 10 ^ 9

/-- The local state of `driver_loop`: the busy flag and the timer descriptor. -/
structure Driver where
  busy : Bool
  tfd : Option ℕ
  deriving DecidableEq, Repr

/-- What the driver sends. -/
inductive Reply where
  | bye
  | busy (rem : ℤ)
  | available
  | badTimer
  | ok
  | unknownCommand
  deriving DecidableEq, Repr

/-- The bytes of a reply; `snprintf` writes the busy one into 64 bytes. -/
def Reply.text : Reply → List UInt8
  | .bye => ascii "Bye"
  | .busy rem => snprintf 64 (ascii "Busy " ++ decimalInt rem)
  | .available => ascii "Available"
  | .badTimer => ascii "Error BadTimer"
  | .ok => ascii "OK"
  | .unknownCommand => ascii "Error UnknownCommand"

/-- `timerfd_settime` with a one-shot value of `seconds`, or disarming. -/
def timerSetSecs (now : ℕ) (seconds : ℤ) : Option ℕ :=
  if seconds > 0 then some (now + seconds.toNat * nsPerSec) else none

/-- The nanoseconds `timerfd_gettime` reports left. -/
def timerLeft (tfd : Option ℕ) (now : ℕ) : ℕ :=
  match tfd with
  | some deadline => deadline - now
  | none => 0

def timerRemainingSecs (tfd : Option ℕ) (now : ℕ) : ℤ :=
  let left := timerLeft tfd now
  if left % nsPerSec ≠ 0 then (left / nsPerSec : ℕ) + 1 else (left / nsPerSec : ℕ)

/-- Whether `poll` reports the timer descriptor readable. -/
def timerPollin (tfd : Option ℕ) (now : ℕ) : Bool :=
  match tfd with
  | some deadline => deadline ≤ now
  | none => false

/-- What `recv` returns: `EAGAIN`, another error, or a datagram, the empty one standing for the end
of the stream. -/
inductive Recv where
  | again
  | error
  | data (dgram : List UInt8)
  deriving DecidableEq, Repr

/-- A return of `poll` with events, and what `recv` finds when it is called. -/
structure Wake where
  polled : ℕ
  now : ℕ
  hangup : Bool
  recv : Option Recv
  deriving DecidableEq, Repr

/-- The driver afterwards, what it sent, and whether the process ends. -/
structure DriverOut where
  driver : Driver
  sends : List Reply
  exit : Bool
  deriving DecidableEq, Repr

/-- The C string in `msg` after a `recv` into its first 255 bytes. -/
def msgText (dgram : List UInt8) : List UInt8 := cstr (dgram.take (MSGSZ - 1))

/-- `strtol` behind "TASK" and white space. -/
def taskTimer (msg : List UInt8) : ℤ × ℕ := strtol ((msg.drop 4).dropWhile isspace)

def timerBlock (d : Driver) (pollin : Bool) : Driver :=
  if pollin then { busy := false, tfd := timerSetSecs 0 0 } else d

def handleMsg (d : Driver) (now : ℕ) (msg : List UInt8) : DriverOut :=
  if strncmpEq msg (ascii "QUIT") 4 then ⟨d, [.bye], true⟩
  else if strncmpEq msg (ascii "STATUS") 6 then
    if d.busy then ⟨d, [.busy (timerRemainingSecs d.tfd now)], false⟩
    else ⟨d, [.available], false⟩
  else if strncmpEq msg (ascii "TASK") 4 then
    let (sec, consumed) := taskTimer msg
    if consumed = 0 ∨ sec ≤ 0 ∨ sec > 86400 then ⟨d, [.badTimer], false⟩
    else if d.busy then ⟨d, [.busy (timerRemainingSecs d.tfd now)], false⟩
    else ⟨{ busy := true, tfd := timerSetSecs now sec }, [.ok], false⟩
  else ⟨d, [.unknownCommand], false⟩

def handleRecv (d : Driver) (now : ℕ) : Recv → DriverOut
  | .again => ⟨d, [], false⟩
  | .error => ⟨d, [], true⟩
  | .data [] => ⟨d, [], true⟩
  | .data dgram => handleMsg d now (msgText dgram)

/-- One pass of the loop of `driver_loop`. -/
def driverIter (d : Driver) (w : Wake) : DriverOut :=
  let d := timerBlock d (timerPollin d.tfd w.polled)
  if w.hangup then ⟨d, [], true⟩
  else
    match w.recv with
    | none => ⟨d, [], false⟩
    | some r => handleRecv d w.now r

/-- A driver process in time. -/
structure DriverState where
  driver : Driver
  now : ℕ
  exited : Bool

/-- The driver's runs: passes of the loop at moments that do not go back, until the process ends.
An interrupted `poll` is no pass. -/
def driverLts : Lts DriverState Wake where
  init s := s.driver = ⟨false, none⟩ ∧ s.exited = false
  step s w s' := s.exited = false ∧ s.now ≤ w.polled ∧ w.polled ≤ w.now
    ∧ s' = ⟨(driverIter s.driver w).driver, w.now, (driverIter s.driver w).exit⟩

/-- What the driver sends in a pass. -/
def DriverState.answers (s : DriverState) (w : Wake) : List Reply := (driverIter s.driver w).sends

end EltexSystems
