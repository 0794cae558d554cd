import EltexSystems.Lib.Lts
import EltexSystems.Lib.Pipe
import Mathlib.Logic.Function.Basic

/-!
# The pipeline of `channels/interpreter.c`

The shell and the two children of a line with a bar, from `pipe` to the next prompt, with the ends
of the pipe each holds: the descriptors `fd[0]` and `fd[1]`, and the end that stands for its output
or input after `dup2`.  A command may read or write, close its end, and exit at any time; `fork` and
`execvp` may fail, `pipe`, `dup2` and `close` do not.
-/

namespace EltexSystems.Pipeline

inductive Side where
  | first
  | second
  deriving DecidableEq, Repr

/-- Where a child is; `unborn` where its `fork` failed, too. -/
inductive CmdPc where
  | unborn
  | dup
  | close0
  | close1
  | exec
  | runs
  | exited
  deriving DecidableEq, Repr

/-- A child with the descriptors of the pipe it holds: `std` is the one `dup2` gave it. -/
structure Cmd where
  pc : CmdPc
  read : Bool
  write : Bool
  std : Bool
  reaped : Bool

inductive ShellPc where
  | pipe
  | fork (i : Side)
  | close0
  | close1
  | wait1
  | wait2
  | prompt
  deriving DecidableEq, Repr

/-- The shell behind the `fork` of a child, and behind a `wait`. -/
def afterFork : Side → ShellPc
  | .first => .fork .second
  | .second => .close0

def afterWait : ShellPc → ShellPc
  | .wait1 => .wait2
  | _ => .prompt

structure State where
  shell : ShellPc
  read : Bool
  write : Bool
  cmds : Side → Cmd
  pipe : Pipe UInt8
  eof : Bool

namespace State

variable (s : State)

/-- Some process holds the pipe's write end. -/
def Writers : Prop := s.write = true ∨ (∃ i, (s.cmds i).write = true) ∨ (s.cmds .first).std = true

def Readers : Prop := s.read = true ∨ (∃ i, (s.cmds i).read = true) ∨ (s.cmds .second).std = true

def set (i : Side) (c : Cmd) : State := { s with cmds := Function.update s.cmds i c }

/-- A child exits, and with it go its descriptors. -/
def gone (i : Side) : State := s.set i ⟨.exited, false, false, false, (s.cmds i).reaped⟩

end State

/-- The `wait`s of the shell. -/
def Waits (pc : ShellPc) : Prop := pc = .wait1 ∨ pc = .wait2

/-- There is no such child, or it was waited for. -/
def Cmd.Done (c : Cmd) : Prop := c.pc = .unborn ∨ c.reaped = true

inductive Label where
  | shell
  | child (i : Side)
  | write (bs : List UInt8)
  | read (n : ℕ)

inductive Step : State → Label → State → Prop where
  | pipe {s : State} : s.shell = .pipe →
      Step s .shell { s with shell := .fork .first, read := true, write := true, pipe := .empty }
  | fork {s : State} {i : Side} : s.shell = .fork i →
      Step s .shell
        { s.set i ⟨.dup, s.read, s.write, false, false⟩ with shell := afterFork i }
  | forkFails {s : State} {i : Side} : s.shell = .fork i →
      Step s .shell { s with shell := afterFork i }
  | shellClose0 {s : State} : s.shell = .close0 →
      Step s .shell { s with shell := .close1, read := false }
  | shellClose1 {s : State} : s.shell = .close1 →
      Step s .shell { s with shell := .wait1, write := false }
  | wait {s : State} {i : Side} : Waits s.shell → (s.cmds i).pc = .exited →
      (s.cmds i).reaped = false →
      Step s .shell
        { s.set i { s.cmds i with reaped := true } with shell := afterWait s.shell }
  | waitNone {s : State} : Waits s.shell → (∀ i, (s.cmds i).Done) →
      Step s .shell { s with shell := afterWait s.shell }
  | dup {s : State} {i : Side} : (s.cmds i).pc = .dup →
      Step s (.child i) (s.set i { s.cmds i with pc := .close0, std := true })
  | close0 {s : State} {i : Side} : (s.cmds i).pc = .close0 →
      Step s (.child i) (s.set i { s.cmds i with pc := .close1, read := false })
  | close1 {s : State} {i : Side} : (s.cmds i).pc = .close1 →
      Step s (.child i) (s.set i { s.cmds i with pc := .exec, write := false })
  | exec {s : State} {i : Side} : (s.cmds i).pc = .exec →
      Step s (.child i) (s.set i { s.cmds i with pc := .runs })
  | execFails {s : State} {i : Side} : (s.cmds i).pc = .exec → Step s (.child i) (s.gone i)
  | write {s : State} {bs : List UInt8} : (s.cmds .first).pc = .runs →
      (s.cmds .first).std = true → s.Readers →
      Step s (.write bs) { s with pipe := s.pipe.write bs }
  | sigpipe {s : State} {bs : List UInt8} : (s.cmds .first).pc = .runs →
      (s.cmds .first).std = true → ¬ s.Readers → Step s (.write bs) (s.gone .first)
  | read {s : State} {n : ℕ} : (s.cmds .second).pc = .runs → (s.cmds .second).std = true →
      s.pipe.buf ≠ [] → Step s (.read n) { s with pipe := (s.pipe.read n).2 }
  | eof {s : State} {n : ℕ} : (s.cmds .second).pc = .runs → (s.cmds .second).std = true →
      s.pipe.buf = [] → ¬ s.Writers → Step s (.read n) { s with eof := true }
  | close {s : State} {i : Side} : (s.cmds i).pc = .runs →
      Step s (.child i) (s.set i { s.cmds i with std := false })
  | exit {s : State} {i : Side} : (s.cmds i).pc = .runs → Step s (.child i) (s.gone i)

/-- The shell has read a line with a bar. -/
def lts : Lts State Label where
  init s := s = ⟨.pipe, false, false, fun _ => ⟨.unborn, false, false, false, false⟩, .empty, false⟩
  step := Step

/-- A child that can still write to the pipe or read from it: it is being set up or runs. -/
def Cmd.Alive (c : Cmd) : Prop := c.pc ≠ .unborn ∧ c.pc ≠ .exited

end EltexSystems.Pipeline
