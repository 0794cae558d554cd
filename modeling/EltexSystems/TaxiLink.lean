import EltexSystems.TaxiDriver

/-!
# The CLI and one driver of `taxi_control/main.c`

The two ends of one socket pair, each direction a queue that delivers every message once and in
order: commands on their way to the driver, replies on their way to the CLI.  A driver pass takes
the oldest command, if `poll` and `recv` give it one, and what it sends is queued; a read of the CLI
takes the oldest reply and prints it behind the driver's pid.
-/

namespace EltexSystems

open CStr

/-- What the CLI sends a driver before the shutdown. -/
inductive Command where
  | task (sec : ℤ)
  | status
  deriving DecidableEq, Repr

/-- The message of `cmd_send_task`, or of `cmd_get_status` and `cmd_get_drivers`. -/
def Command.text : Command → List UInt8
  | .task sec => snprintf MSGSZ (ascii "TASK " ++ decimalInt sec)
  | .status => ascii "STATUS"

/-- The line `handle_driver_readable` prints for a message. -/
def driverLine (pid : ℤ) (msg : List UInt8) : List UInt8 :=
  decimalInt pid ++ ascii ": " ++ cstr (msg.take (MSGSZ - 1)) ++ ascii "\n"

/-- Both ends and the messages in flight.  Beside them, what has happened: the commands sent, the
passes that took one, what passes that took none sent, and the lines printed. -/
structure Link where
  drv : DriverState
  toDrv : List (List UInt8)
  toCli : List (List UInt8)
  sent : List Command
  served : List (DriverState × Wake)
  stray : List Reply
  printed : List (List UInt8)

inductive LinkLabel where
  | send (c : Command)
  | sendFailed (c : Command)
  | pass (w : Wake)
  | read

/-- What the driver sends in a pass, as messages. -/
def Link.replies (l : Link) (w : Wake) : List (List UInt8) := (l.drv.answers w).map Reply.text

inductive LinkStep (pid : ℤ) : Link → LinkLabel → Link → Prop where
  | send (l : Link) (c : Command) :
      LinkStep pid l (.send c) { l with toDrv := l.toDrv ++ [c.text], sent := l.sent ++ [c] }
  | sendFailed (l : Link) (c : Command) : LinkStep pid l (.sendFailed c) l
  | idle {l : Link} {w : Wake} {d : DriverState} : driverLts.step l.drv w d → w.hangup = false →
      w.recv = none ∨ w.recv = some .again →
      LinkStep pid l (.pass w)
        { l with drv := d, toCli := l.toCli ++ l.replies w, stray := l.stray ++ l.drv.answers w }
  | serve {l : Link} {w : Wake} {d : DriverState} {m : List UInt8} {rest : List (List UInt8)} :
      driverLts.step l.drv w d → w.hangup = false → w.recv = some (.data m) →
      l.toDrv = m :: rest →
      LinkStep pid l (.pass w)
        { l with
          drv := d, toDrv := rest, toCli := l.toCli ++ l.replies w,
          served := l.served ++ [(l.drv, w)] }
  | read {l : Link} {m : List UInt8} {rest : List (List UInt8)} : l.toCli = m :: rest →
      LinkStep pid l .read { l with toCli := rest, printed := l.printed ++ [driverLine pid m] }

def linkLts (pid : ℤ) : Lts Link LinkLabel where
  init l := driverLts.init l.drv ∧ l.toDrv = [] ∧ l.toCli = [] ∧ l.sent = [] ∧ l.served = [] ∧
    l.stray = [] ∧ l.printed = []
  step := LinkStep pid

/-- The pass sets the timer beyond what the timer block does. -/
def Arms (s : DriverState) (w : Wake) : Prop :=
  (driverIter s.driver w).driver.tfd
    ≠ (timerBlock s.driver (timerPollin s.driver.tfd w.polled)).tfd

end EltexSystems
