import EltexSystems.TaxiPipe

/-!
# What becomes of a typed `send_task`

A line `send_task P T` as `fgets` takes it into `line`, the messages the iterations send that run
its pieces, and what a driver that gets one of them does.
-/

namespace EltexSystems

open CStr

/-- The line `send_task P T`. -/
def sendTaskLine (P T : List UInt8) : List UInt8 := ascii "send_task " ++ P ++ 32 :: T ++ [LF]

/-- The message an effect sends, with its socket. -/
def Effect.message : Effect → Option (ℤ × List UInt8)
  | .send fd msg => some (fd, msg)
  | _ => none

/-- The messages sent so far. -/
def Cli.sent (c : Cli) : List (ℤ × List UInt8) := c.log.filterMap Effect.message

/-- What a driver does with a message that was sent to the socket `fd`, the table being `drivers`,
is what `send_task P T` asks for. -/
structure AsTyped (P T : List UInt8) (drivers : List DriverEntry) (fd : ℤ) (d : Driver) (now : ℕ)
    (out : DriverOut) : Prop where
  pid : .ok ∈ out.sends → (∃ x ∈ drivers, x.alive = true ∧ x.fd = fd) ∧
    ∀ x ∈ drivers, x.alive = true → x.fd = fd → x.pid = digitsValue P
  timer : .ok ∈ out.sends → out.driver.tfd = some (now + digitsValue T * nsPerSec)
  unchanged : ¬ (1 ≤ digitsValue T ∧ digitsValue T ≤ 86400) ∨
    (∀ x ∈ drivers, x.alive = true → x.pid ≠ digitsValue P) → out.driver = d

/-- The number that was typed is the one delivered: every message that an iteration of any run sends
for a piece of the line does, in any state of the driver that gets it, what was typed. -/
def DeliversTyped (P T : List UInt8) : Prop :=
  ∀ (tr : List (Cli × LoopEnv)) (c : Cli) (e : LoopEnv), cliLts.Run tr c → FreshSocket c e →
    ∀ p ∈ fgetsLines [] (sendTaskLine P T), e.reads p = true →
      ∀ m ∈ (mainIter c e).cli.sent.drop c.sent.length, ∀ (d : Driver) (now : ℕ),
        AsTyped P T (mainIter c e).polled m.1 d now (handleMsg d now (msgText m.2))

/-- The digits of the timer that `fgets` takes into `line` with the command. -/
def timerRead (P T : List UInt8) : List UInt8 := T.take (MSGSZ - 12 - P.length)

/-- Digits that denote a `long` whose low 32 bits are a number from 1 to `max`. -/
def LowInRange (max : ℕ) (ds : List UInt8) : Prop :=
  digitsValue ds < 2 ^ 63 ∧ 1 ≤ digitsValue ds % 2 ^ 32 ∧ digitsValue ds % 2 ^ 32 ≤ max

instance (max : ℕ) (ds : List UInt8) : Decidable (LowInRange max ds) :=
  inferInstanceAs (Decidable (_ ∧ _))

/-- `send_task P T` gives a driver another pid or timer than typed: what is left of both numbers is
a pid and a timer, and the line is longer than `line` or one of the numbers is no `int`. -/
def Mangled (P T : List UInt8) : Prop :=
  (LowInRange (2 ^ 31 - 1) P ∧ LowInRange 86400 (timerRead P T)) ∧
    (MSGSZ - 12 - P.length < T.length ∨ 2 ^ 32 ≤ digitsValue P ∨
      2 ^ 32 ≤ digitsValue (timerRead P T))

instance (P T : List UInt8) : Decidable (Mangled P T) :=
  inferInstanceAs (Decidable (_ ∧ _))

end EltexSystems
