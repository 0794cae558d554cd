import EltexSystems.Fifo
import Mathlib.Data.Fintype.Basic

/-!
# The processes of `channels/pipe.c`

A parent that writes to a pipe and the child it forks, which reads from it.  Each has both ends
behind `fork` and closes the one that it does not use; a process that ends closes what it has open,
and the pipe's data goes with the last descriptor.
-/

namespace EltexSystems.ParentChild

open CStr Mem
open Fifo (BUF_SIZE CAPACITY msg)

inductive Who where
  | parent
  | child
  deriving DecidableEq, Repr

instance : Fintype Who := ⟨{.parent, .child}, fun w => by cases w <;> simp⟩

/-- Where a process is: the parent before `pipe` and `fork`; either before it closes the end of the
other, at its `write` or `read`, before it closes its own end, and behind that in `wait` or before
`exit`. -/
inductive Pc where
  | pipe
  | fork
  | unborn
  | closeOther
  | transfer
  | print
  | close
  | wait
  | exit
  | exited (code : ℕ)
  | killed
  deriving DecidableEq, Repr

/-- Who has `fd[0]` and `fd[1]` open, the pipe, the child's `buf`, what it read to there and what it
printed. -/
structure State where
  pc : Who → Pc
  reads : Who → Bool
  writes : Who → Bool
  pipe : Pipe UInt8
  buf : List UInt8
  got : List UInt8
  line : Option Fifo.Line

inductive Label where
  | step (w : Who)
  | fail

namespace State

variable (s : State)

def goto (w : Who) (pc : Pc) : State := { s with pc := Function.update s.pc w pc }

def setReads (w : Who) (b : Bool) : State := { s with reads := Function.update s.reads w b }

def setWrites (w : Who) (b : Bool) : State := { s with writes := Function.update s.writes w b }

/-- Some process has one of the ends open. -/
def Open : Prop := ∃ w, s.reads w = true ∨ s.writes w = true

instance : Decidable s.Open := inferInstanceAs (Decidable (∃ _, _))

/-- The pipe goes with the last descriptor. -/
def settle : State := { s with pipe := if s.Open then s.pipe else .empty }

/-- A process ends. -/
def ends (w : Who) (pc : Pc) : State :=
  (((s.goto w pc).setReads w false).setWrites w false).settle

end State

inductive Step : State → Label → State → Prop where
  | pipe {s : State} : s.pc .parent = .pipe → Step s (.step .parent)
      (((s.goto .parent .fork).setReads .parent true).setWrites .parent true)
  | pipeFails {s : State} : s.pc .parent = .pipe → Step s .fail (s.ends .parent (.exited 1))
  | fork {s : State} : s.pc .parent = .fork → Step s (.step .parent)
      { s with
        pc := fun _ => .closeOther
        reads := fun _ => s.reads .parent
        writes := fun _ => s.writes .parent }
  | forkFails {s : State} : s.pc .parent = .fork → Step s .fail (s.ends .parent (.exited 1))
  | closeRead {s : State} : s.pc .parent = .closeOther → Step s (.step .parent)
      ((s.goto .parent .transfer).setReads .parent false).settle
  | closeWrite {s : State} : s.pc .child = .closeOther → Step s (.step .child)
      ((s.goto .child .transfer).setWrites .child false).settle
  | write {s : State} : s.pc .parent = .transfer → (∃ w, s.reads w = true) →
      s.pipe.buf.length + msg.length ≤ CAPACITY →
      Step s (.step .parent) { s.goto .parent .close with pipe := s.pipe.write msg }
  | sigpipe {s : State} : s.pc .parent = .transfer → (∀ w, s.reads w = false) →
      Step s (.step .parent) (s.ends .parent .killed)
  | read {s : State} : s.pc .child = .transfer → s.pipe.buf ≠ [] → Step s (.step .child)
      { s.goto .child .print with
        pipe := (s.pipe.read BUF_SIZE).2
        got := (s.pipe.read BUF_SIZE).1 }
  | eof {s : State} : s.pc .child = .transfer → s.pipe.buf = [] → (∀ w, s.writes w = false) →
      Step s (.step .child) { s.goto .child .print with got := [] }
  | print {s : State} : s.pc .child = .print → Step s (.step .child)
      { s.goto .child .close with
        line := some (if s.got = [] then .unset
          else .text (cstr (memcpy s.buf 0 s.got s.got.length))) }
  | parentCloses {s : State} : s.pc .parent = .close → Step s (.step .parent)
      ((s.goto .parent .wait).setWrites .parent false).settle
  | childCloses {s : State} : s.pc .child = .close → Step s (.step .child)
      ((s.goto .child .exit).setReads .child false).settle
  | exit {s : State} : s.pc .child = .exit → Step s (.step .child) (s.ends .child (.exited 0))
  | wait {s : State} {code : ℕ} : s.pc .parent = .wait → s.pc .child = .exited code →
      Step s (.step .parent) (s.ends .parent (.exited 0))

/-- The parent before `pipe`. -/
def lts : Lts State Label where
  init s := s.pc = (fun w => if w = .parent then .pipe else .unborn) ∧
    s.reads = (fun _ => false) ∧ s.writes = (fun _ => false) ∧ s.pipe = .empty ∧ s.got = [] ∧
    s.line = none
  step := Step

end EltexSystems.ParentChild
