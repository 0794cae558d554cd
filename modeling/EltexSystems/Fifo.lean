import EltexSystems.Lib.Bytes
import EltexSystems.Lib.CString
import EltexSystems.Lib.Lts
import EltexSystems.Lib.Pipe
import Mathlib.Logic.Function.Basic

/-!
# The processes of `channels/fifo-server.c` and `channels/fifo-client.c`

Any number of servers and clients and the FIFOs that their name stands for one after another.  An
`open` counts its process at the FIFO and waits until one of the other side is there or has come
since; a `read` waits while the FIFO is empty and has a writer, a `write` while it is full.  The
last to close a FIFO takes with it what is in there.  There is no FIFO of the name at the start.
-/

namespace EltexSystems.Fifo

open CStr Mem

/-- The bytes a FIFO holds. -/
def CAPACITY : ℕ := 65536

/-- The size of a client's `buf`. -/
def BUF_SIZE : ℕ := 64

/-- What a server writes. -/
def msg : List UInt8 := ascii "Hi!" ++ [0]

/-- Where a process is: a server before `mkfifo`; before `open` or in it, until the other side's
count is `need`; at its `write` or `read`; and behind them. -/
inductive Pc where
  | start
  | opens
  | waits (need : ℕ)
  | works
  | prints
  | closes
  | unlinks
  | exited (code : ℕ)
  | killed
  deriving DecidableEq, Repr

/-- What a client prints: the text of what it read, or a buffer that nothing was read to. -/
inductive Line where
  | text (t : List UInt8)
  | unset
  deriving DecidableEq, Repr

structure Proc where
  pc : Pc
  fd : ℕ
  buf : List UInt8
  got : List UInt8
  line : Option Line

/-- The FIFO that the name stands for, by its number, the number of FIFOs so far, their data, how
many servers and clients have come to each, and the processes. -/
structure State (ι κ : Type*) where
  name : Option ℕ
  made : ℕ
  pipes : ℕ → Pipe UInt8
  servers : ℕ → ℕ
  clients : ℕ → ℕ
  procs : ι ⊕ κ → Proc

variable {ι κ : Type*}

/-- The process has the FIFO open, or is in its `open`. -/
def Proc.At (c : Proc) (n : ℕ) : Prop :=
  c.fd = n ∧ match c.pc with
    | .waits _ | .works | .prints | .closes => True
    | _ => False

inductive Label (ι κ : Type*) where
  | step (p : ι ⊕ κ)
  | fail (p : ι ⊕ κ)

namespace State

variable (s : State ι κ)

/-- Some process has the FIFO open, or is in its `open`. -/
def Held (n : ℕ) : Prop := ∃ p, (s.procs p).At n

def Writer (n : ℕ) : Prop := ∃ i, (s.procs (.inl i)).At n

def Reader (n : ℕ) : Prop := ∃ k, (s.procs (.inr k)).At n

/-- A process of the other side is at the FIFO. -/
def Partner : ι ⊕ κ → ℕ → Prop
  | .inl _, n => s.Reader n
  | .inr _, n => s.Writer n

/-- How many of the other side have come to a FIFO. -/
def partners : ι ⊕ κ → ℕ → ℕ
  | .inl _, n => s.clients n
  | .inr _, n => s.servers n

variable [DecidableEq ι] [DecidableEq κ]

def set (p : ι ⊕ κ) (c : Proc) : State ι κ := { s with procs := Function.update s.procs p c }

def goto (p : ι ⊕ κ) (pc : Pc) : State ι κ := s.set p { s.procs p with pc := pc }

def setPipe (n : ℕ) (q : Pipe UInt8) : State ι κ :=
  { s with pipes := Function.update s.pipes n q }

/-- A process is counted at a FIFO. -/
def come : ι ⊕ κ → ℕ → State ι κ
  | .inl _, n => { s with servers := Function.update s.servers n (s.servers n + 1) }
  | .inr _, n => { s with clients := Function.update s.clients n (s.clients n + 1) }

/-- A process is in its `open`. -/
def enter (p : ι ⊕ κ) (n need : ℕ) : State ι κ :=
  (s.come p n).set p { s.procs p with pc := .waits need, fd := n }

end State

/-- Where a process goes on behind `close`. -/
def afterClose : ι ⊕ κ → Pc
  | .inl _ => .exited 0
  | .inr _ => .unlinks

variable [DecidableEq ι] [DecidableEq κ]

/-- A process gives up the FIFO, and its data when nobody else is there. -/
inductive Leaves (s : State ι κ) (p : ι ⊕ κ) (pc : Pc) : State ι κ → Prop where
  | others : (∃ r ≠ p, (s.procs r).At (s.procs p).fd) → Leaves s p pc (s.goto p pc)
  | last : (∀ r ≠ p, ¬ (s.procs r).At (s.procs p).fd) →
      Leaves s p pc ((s.goto p pc).setPipe (s.procs p).fd .empty)

inductive Step : State ι κ → Label ι κ → State ι κ → Prop where
  | mkfifo {s : State ι κ} {i : ι} : (s.procs (.inl i)).pc = .start → s.name = none →
      Step s (.step (.inl i))
        { s.goto (.inl i) .opens with
          name := some s.made
          made := s.made + 1 }
  | mkfifoFails {s : State ι κ} {i : ι} : (s.procs (.inl i)).pc = .start →
      Step s (.fail (.inl i)) (s.goto (.inl i) .opens)
  | openFails {s : State ι κ} {p : ι ⊕ κ} : (s.procs p).pc = .opens →
      Step s (.fail p) (s.goto p (.exited 1))
  | openTogether {s : State ι κ} {p : ι ⊕ κ} {n : ℕ} : (s.procs p).pc = .opens →
      s.name = some n → s.Partner p n → Step s (.step p) (s.enter p n 0)
  | openAlone {s : State ι κ} {p : ι ⊕ κ} {n : ℕ} : (s.procs p).pc = .opens →
      s.name = some n → ¬ s.Partner p n → Step s (.step p) (s.enter p n (s.partners p n + 1))
  | opened {s : State ι κ} {p : ι ⊕ κ} {need : ℕ} : (s.procs p).pc = .waits need →
      need ≤ s.partners p (s.procs p).fd → Step s (.step p) (s.goto p .works)
  | write {s : State ι κ} {i : ι} : (s.procs (.inl i)).pc = .works →
      s.Reader (s.procs (.inl i)).fd →
      (s.pipes (s.procs (.inl i)).fd).buf.length + msg.length ≤ CAPACITY →
      Step s (.step (.inl i))
        ((s.goto (.inl i) .closes).setPipe (s.procs (.inl i)).fd
          ((s.pipes (s.procs (.inl i)).fd).write msg))
  | sigpipe {s s' : State ι κ} {i : ι} : (s.procs (.inl i)).pc = .works →
      ¬ s.Reader (s.procs (.inl i)).fd → Leaves s (.inl i) .killed s' →
      Step s (.step (.inl i)) s'
  | read {s : State ι κ} {k : κ} : (s.procs (.inr k)).pc = .works →
      (s.pipes (s.procs (.inr k)).fd).buf ≠ [] →
      Step s (.step (.inr k))
        ((s.set (.inr k) { s.procs (.inr k) with
          pc := .prints
          got := ((s.pipes (s.procs (.inr k)).fd).read BUF_SIZE).1 }).setPipe
            (s.procs (.inr k)).fd ((s.pipes (s.procs (.inr k)).fd).read BUF_SIZE).2)
  | eof {s : State ι κ} {k : κ} : (s.procs (.inr k)).pc = .works →
      (s.pipes (s.procs (.inr k)).fd).buf = [] → ¬ s.Writer (s.procs (.inr k)).fd →
      Step s (.step (.inr k)) (s.set (.inr k) { s.procs (.inr k) with pc := .prints, got := [] })
  | print {s : State ι κ} {k : κ} : (s.procs (.inr k)).pc = .prints →
      Step s (.step (.inr k)) (s.set (.inr k) { s.procs (.inr k) with
        pc := .closes
        line := some (if (s.procs (.inr k)).got = [] then .unset
          else .text (cstr (memcpy (s.procs (.inr k)).buf 0 (s.procs (.inr k)).got
            (s.procs (.inr k)).got.length))) })
  | close {s s' : State ι κ} {p : ι ⊕ κ} : (s.procs p).pc = .closes →
      Leaves s p (afterClose p) s' → Step s (.step p) s'
  | unlink {s : State ι κ} {k : κ} : (s.procs (.inr k)).pc = .unlinks →
      Step s (.step (.inr k)) { s.goto (.inr k) (.exited 0) with name := none }

/-- There is no FIFO of the name. -/
def lts : Lts (State ι κ) (Label ι κ) where
  init s := s.name = none ∧ s.made = 0 ∧ (∀ n, s.pipes n = .empty) ∧ (∀ n, s.servers n = 0) ∧
    (∀ n, s.clients n = 0) ∧
    ∀ p, (s.procs p).pc = (if p.isLeft then .start else .opens) ∧ (s.procs p).got = [] ∧
      (s.procs p).line = none
  step := Step

/-- What a step writes to a FIFO: the message, where a `write` has brought the server on. -/
def wrote (n : ℕ) : State ι κ × Label ι κ × State ι κ → List UInt8
  | (s, .step (.inl i), t) =>
    if (s.procs (.inl i)).pc = .works ∧ (t.procs (.inl i)).pc = .closes ∧ (s.procs (.inl i)).fd = n
    then msg else []
  | _ => []

/-- What a step reads from a FIFO: what the client has then got. -/
def took (n : ℕ) : State ι κ × Label ι κ × State ι κ → List UInt8
  | (s, .step (.inr k), t) =>
    if (s.procs (.inr k)).pc = .works ∧ (s.procs (.inr k)).fd = n then (t.procs (.inr k)).got
    else []
  | _ => []

end EltexSystems.Fifo
