import EltexSystems.Lib.CString
import EltexSystems.Lib.Lts
import EltexSystems.TaxiCli
import Mathlib.Logic.Function.Basic

/-!
# The programs of `signals/`

One of `sigwait_loop.c`, `sigusr1_handler.c` and `block_sigint.c`, the process `none`, and any
number of processes of `sender.c`.  A signal sent to a process is pending there until it is taken,
or until the process is gone, killed by it or otherwise; sent again before that, it is pending once.
The handler runs with its own signal blocked.  A `printf` is one step, and those at the start of the
three programs are one together.
-/

namespace EltexSystems.Signals

open CStr

/-- The signals that `sender` sends. -/
inductive Sig where
  | usr1
  | int
  deriving DecidableEq, Repr

def Sig.number : Sig → ℕ
  | .usr1 => 10
  | .int => 2

inductive Program where
  | sigwaitLoop
  | sigusr1Handler
  | blockSigint
  deriving DecidableEq, Repr

/-- The signal that a program blocks with `sigprocmask`, or handles. -/
def Program.shields : Program → Sig
  | .sigwaitLoop | .sigusr1Handler => .usr1
  | .blockSigint => .int

/-- Where a process is: before `sigprocmask` or `sigaction`, or for a sender before the checks and
`kill`; before its first `printf`s; in its loop; behind `sigwait`; or a sender behind a `kill` that
reached itself or did not. -/
inductive Pc where
  | start
  | intro
  | loop
  | woken
  | dying
  | sent
  | exited (code : ℕ)
  | killed (sig : Sig)
  deriving DecidableEq, Repr

def Pc.Runs : Pc → Prop
  | .exited _ | .killed _ => False
  | _ => True

instance (pc : Pc) : Decidable pc.Runs := by
  cases pc <;> unfold Pc.Runs <;> infer_instance

/-- What the arguments of `sender` ask for. -/
inductive Order where
  | usage
  | unknown
  | kill (pid : ℤ) (sig : Sig)
  deriving DecidableEq, Repr

/-- `main` of `sender.c` up to `kill`; `atoi` is `strtol` narrowed. -/
def order : List (List UInt8) → Order
  | _ :: pid :: name :: _ =>
    if name = ascii "USR1" then .kill (toInt (strtol pid).1) .usr1
    else if name = ascii "INT" then .kill (toInt (strtol pid).1) .int
    else .unknown
  | _ => .usage

/-- The processes with their numbers and groups, and the senders' arguments. -/
structure Setting (ι : Type*) where
  program : Program
  pid : Option ι → ℤ
  pgrp : Option ι → ℤ
  argv : ι → List (List UInt8)

variable {ι : Type*}

/-- `kill(n, sig)` by a sender reaches a process. -/
def Setting.Reaches (S : Setting ι) (i : ι) (n : ℤ) (p : Option ι) : Prop :=
  0 < n ∧ S.pid p = n ∨ n = 0 ∧ S.pgrp p = S.pgrp (some i) ∨ n = -1 ∧ p ≠ some i ∨
    n < -1 ∧ S.pgrp p = -n

instance [DecidableEq ι] (S : Setting ι) (i : ι) (n : ℤ) (p : Option ι) :
    Decidable (S.Reaches i n p) := by unfold Setting.Reaches; infer_instance

structure State (ι : Type*) where
  pc : Option ι → Pc
  pending : Option ι → Sig → Bool
  handling : Bool
  lines : List ℕ

inductive Label (ι : Type*) where
  | kill (i : ι)
  | take
  | step (p : Option ι)
  | exit (p : Option ι)
  | die (p : Option ι)

variable [DecidableEq ι]

namespace State

variable (s : State ι)

def goto (p : Option ι) (pc : Pc) : State ι := { s with pc := Function.update s.pc p pc }

/-- A signal is sent to some processes. -/
def raise (reached : Option ι → Prop) [DecidablePred reached] (sig : Sig) : State ι :=
  { s with pending := fun p sig' =>
      s.pending p sig' || decide (reached p ∧ sig' = sig ∧ (s.pc p).Runs) }

/-- A process ends, and with it what is pending there. -/
def ends (p : Option ι) (pc : Pc) : State ι :=
  { s.goto p pc with pending := Function.update s.pending p fun _ => false }

def drop (sig : Sig) : State ι :=
  { s with
    pending := Function.update s.pending none (Function.update (s.pending none) sig false) }

end State

/-- A pending signal kills the process: it neither blocks nor handles it. -/
def State.Deadly (s : State ι) (S : Setting ι) (p : Option ι) (sig : Sig) : Prop :=
  s.pending p sig = true ∧ (p = none → sig = S.program.shields → s.pc none = .start)

inductive Step (S : Setting ι) : State ι → Label ι → State ι → Prop where
  | arm {s : State ι} : s.pc none = .start → Step S s (.step none) (s.goto none .intro)
  | armFails {s : State ι} : s.pc none = .start → Step S s (.exit none) (s.ends none (.exited 1))
  | intro {s : State ι} : s.pc none = .intro → s.handling = false →
      Step S s (.step none) (s.goto none .loop)
  | sigwait {s : State ι} : S.program = .sigwaitLoop → s.pc none = .loop →
      s.pending none .usr1 = true → Step S s .take ((s.goto none .woken).drop .usr1)
  | print {s : State ι} : s.pc none = .woken →
      Step S s (.step none) { s.goto none .loop with lines := s.lines ++ [Sig.usr1.number] }
  | handle {s : State ι} : S.program = .sigusr1Handler →
      s.pc none = .intro ∨ s.pc none = .loop → s.handling = false →
      s.pending none .usr1 = true → Step S s .take { s.drop .usr1 with handling := true }
  | handler {s : State ι} : s.handling = true → (s.pc none).Runs →
      Step S s (.step none)
        { s with handling := false, lines := s.lines ++ [Sig.usr1.number] }
  | refuse {s : State ι} {i : ι} : s.pc (some i) = .start →
      (order (S.argv i) = .usage ∨ order (S.argv i) = .unknown) →
      Step S s (.exit (some i)) (s.ends (some i) (.exited 1))
  | kill {s : State ι} {i : ι} {n : ℤ} {sig : Sig} : s.pc (some i) = .start →
      order (S.argv i) = .kill n sig →
      Step S s (.kill i) ((s.raise (S.Reaches i n) sig).goto (some i)
        (if S.Reaches i n (some i) then .dying else .sent))
  | killFails {s : State ι} {i : ι} {n : ℤ} {sig : Sig} : s.pc (some i) = .start →
      order (S.argv i) = .kill n sig → Step S s (.exit (some i)) (s.ends (some i) (.exited 1))
  | report {s : State ι} {i : ι} : s.pc (some i) = .sent →
      Step S s (.exit (some i)) (s.ends (some i) (.exited 0))
  | die {s : State ι} {p : Option ι} {sig : Sig} : (s.pc p).Runs → s.Deadly S p sig →
      Step S s (.die p) (s.ends p (.killed sig))

def lts (S : Setting ι) : Lts (State ι) (Label ι) where
  init s := s = ⟨fun _ => .start, fun _ _ => false, false, []⟩
  step := Step S

/-- The step sends a signal to the program's process. -/
def Sends (S : Setting ι) (sig : Sig) (p : State ι × Label ι) : Prop :=
  (p.1.pc none).Runs ∧
    match p.2 with
    | .kill i =>
      match order (S.argv i) with
      | .kill n sig' => sig' = sig ∧ S.Reaches i n none
      | _ => False
    | _ => False

instance (S : Setting ι) (sig : Sig) : DecidablePred (Sends S sig) := by
  rintro ⟨s, l⟩
  unfold Sends
  cases l <;> simp only []
  case kill i => cases order (S.argv i) <;> infer_instance
  all_goals infer_instance

end EltexSystems.Signals
