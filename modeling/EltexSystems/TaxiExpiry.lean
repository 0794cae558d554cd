import EltexSystems.TaxiDriver

/-!
# A driver whose task is over

The commands a pass of `driver_loop` handles, the deadline of the last task accepted before it, and
what a driver answers once that deadline has passed.
-/

namespace EltexSystems

open CStr

/-- The message a pass handles. -/
def Wake.message (w : Wake) : Option (List UInt8) :=
  match w.hangup, w.recv with
  | false, some (.data (b :: rest)) => some (msgText (b :: rest))
  | _, _ => none

def AsksStatus (msg : List UInt8) : Prop := strncmpEq msg (ascii "STATUS") 6 = true

/-- A task with a timer the driver takes. -/
def AsksTask (msg : List UInt8) : Prop :=
  strncmpEq msg (ascii "TASK") 4 = true ∧ 1 ≤ (taskTimer msg).1 ∧ (taskTimer msg).1 ≤ 86400

/-- The end of the task a pass accepts. -/
def deadlineOf (p : DriverState × Wake) : Option ℕ :=
  if .ok ∈ p.1.answers p.2 then
    p.2.message.map fun msg => p.2.now + (taskTimer msg).1.toNat * nsPerSec
  else none

def lastDeadline (tr : List (DriverState × Wake)) : Option ℕ := (tr.filterMap deadlineOf).getLast?

/-- Once the deadline of the last task accepted has passed when a command is handled, the driver is
free; and it never says that it is busy for no time. -/
structure FreeAfter (tr : List (DriverState × Wake)) : Prop where
  status : ∀ {tr₁ tr₂ : List (DriverState × Wake)} {s : DriverState} {w : Wake} {msg : List UInt8},
    tr = tr₁ ++ (s, w) :: tr₂ → w.message = some msg →
      (∀ deadline, lastDeadline tr₁ = some deadline → deadline ≤ w.now) → AsksStatus msg →
        s.answers w = [.available]
  task : ∀ {tr₁ tr₂ : List (DriverState × Wake)} {s : DriverState} {w : Wake} {msg : List UInt8},
    tr = tr₁ ++ (s, w) :: tr₂ → w.message = some msg →
      (∀ deadline, lastDeadline tr₁ = some deadline → deadline ≤ w.now) → AsksTask msg →
        s.answers w = [.ok]
  never_zero : ∀ p ∈ tr, .busy 0 ∉ p.1.answers p.2

/-- The timer does not run out between the return of `poll` and the handling of a status request or
of a task with a timer in range. -/
def Prompt (s : DriverState) (w : Wake) : Prop :=
  ∀ msg, w.message = some msg → AsksStatus msg ∨ AsksTask msg →
    ∀ deadline, s.driver.tfd = some deadline → deadline ≤ w.now → deadline ≤ w.polled

end EltexSystems
