import EltexSystems.Lib.TypedQueue
import EltexSystems.PosixExchange

/-!
# The exchange of `message_queues/server_sysv.c` and `client_sysv.c`

Any number of servers and clients over the queues that their key names one after another: `msgget`
of a server creates one where there is none, and `IPC_RMID` removes it for all who have it.  A call
on a removed queue fails, one that would block is no step, and where the runs are `faulty` a call
may fail for another reason and a process be killed.
-/

namespace EltexSystems.Sysv

open CStr Mem

/-- `msg_qbytes`, the bytes of text a queue takes. -/
def MSGMNB : ℕ := 16384

def MSG_TEXT_SIZE : ℕ := 64

/-- Where a process is: before `msgget`, `msgsnd` or `msgrcv`, before the `printf` behind the last
two, before `msgctl`, or before the `msgctl` behind a call that failed. -/
inductive Pc where
  | start
  | send
  | sent
  | recv
  | got
  | remove
  | cleanup
  | exited (code : ℕ)
  | killed
  deriving DecidableEq, Repr

inductive Line where
  | sent (text : List UInt8)
  | replied
  | received (text : List UInt8)
  deriving DecidableEq, Repr

/-- `struct msgbuf`. -/
structure MsgBuf where
  mtype : ℕ
  mtext : List UInt8

structure Proc where
  pc : Pc
  msgid : Option ℕ
  msg : MsgBuf
  lines : List Line

/-- The queue that the key names, with its number, the number of queues so far, and the servers and
clients. -/
structure State (ι κ : Type*) where
  queue : Option (ℕ × TypedQueue ℕ (List UInt8))
  made : ℕ
  procs : ι ⊕ κ → Proc

variable {ι κ : Type*}

/-- The message a process sends, and the type of the one it waits for. -/
def message : ι ⊕ κ → ℕ × List UInt8
  | .inl _ => (1, ascii "Hi!")
  | .inr _ => (2, ascii "Hello!")

def wanted : ι ⊕ κ → ℕ
  | .inl _ => 2
  | .inr _ => 1

/-- Where a process goes on behind `msgget`, and behind its `printf`s. -/
def afterGet : ι ⊕ κ → Pc
  | .inl _ => .send
  | .inr _ => .recv

def afterSent : ι ⊕ κ → Pc
  | .inl _ => .recv
  | .inr _ => .exited 0

def afterGot : ι ⊕ κ → Pc
  | .inl _ => .remove
  | .inr _ => .send

/-- Where a process goes on behind a call that failed: a server that has the queue removes it. -/
def afterFail : ι ⊕ κ → Pc → Pc
  | .inl _, .send => .cleanup
  | .inl _, .recv => .cleanup
  | _, _ => .exited 1

/-- What a process prints behind its `msgsnd`. -/
def sentLine (msg : MsgBuf) : ι ⊕ κ → Line
  | .inl _ => .sent (cstr msg.mtext)
  | .inr _ => .replied

/-- The process's `msgbuf` as it hands it to `msgsnd`. -/
def outgoing (p : ι ⊕ κ) (msg : MsgBuf) : MsgBuf :=
  ⟨(message p).1, strcpy msg.mtext (message p).2⟩

/-- What `msgsnd` sends: `strlen(msg.mtext) + 1` bytes. -/
def letter (msg : MsgBuf) : ℕ × List UInt8 := (msg.mtype, cstr msg.mtext ++ [0])

/-- `msgrcv` stores a message. -/
def incoming (t : ℕ) (bytes : List UInt8) (msg : MsgBuf) : MsgBuf :=
  ⟨t, memcpy msg.mtext 0 bytes bytes.length⟩

/-- The bytes of text in a queue. -/
def volume (q : TypedQueue ℕ (List UInt8)) : ℕ := (q.buf.map fun m => m.2.length).sum

inductive Label (ι κ : Type*) where
  | step (p : ι ⊕ κ)
  | fail (p : ι ⊕ κ)
  | kill (p : ι ⊕ κ)

namespace State

variable (s : State ι κ)

/-- The queue of a number is there. -/
def Live (id : ℕ) : Prop := ∃ q, s.queue = some (id, q)

/-- A process has the queue of a number. -/
def Holds (p : ι ⊕ κ) (id : ℕ) : Prop := (s.procs p).msgid = some id

/-- The call a process makes fails for want of a queue. -/
def Refused (p : ι ⊕ κ) : Prop :=
  match (s.procs p).pc with
  | .start => p.isRight ∧ s.queue = none
  | .send | .recv | .remove => ∀ id, s.Holds p id → ¬ s.Live id
  | _ => False

variable [DecidableEq ι] [DecidableEq κ]

def set (p : ι ⊕ κ) (q : Proc) : State ι κ := { s with procs := Function.update s.procs p q }

def goto (p : ι ⊕ κ) (pc : Pc) : State ι κ := s.set p { s.procs p with pc := pc }

end State

/-- Where a process is in a call. -/
def Pc.Calls : Pc → Prop
  | .start | .send | .recv | .remove | .cleanup => True
  | _ => False

def Pc.Runs : Pc → Prop
  | .exited _ | .killed => False
  | _ => True

variable [DecidableEq ι] [DecidableEq κ]

inductive Step (faulty : Bool) : State ι κ → Label ι κ → State ι κ → Prop where
  | create {s : State ι κ} {i : ι} : (s.procs (.inl i)).pc = .start → s.queue = none →
      Step faulty s (.step (.inl i))
        { s.set (.inl i) { s.procs (.inl i) with pc := .send, msgid := some s.made } with
          queue := some (s.made, .empty)
          made := s.made + 1 }
  | get {s : State ι κ} {p : ι ⊕ κ} {id : ℕ} {q : TypedQueue ℕ (List UInt8)} :
      (s.procs p).pc = .start → s.queue = some (id, q) →
      Step faulty s (.step p) (s.set p { s.procs p with pc := afterGet p, msgid := some id })
  | send {s : State ι κ} {p : ι ⊕ κ} {id : ℕ} {q : TypedQueue ℕ (List UInt8)} :
      (s.procs p).pc = .send → s.Holds p id → s.queue = some (id, q) →
      volume q + (letter (outgoing p (s.procs p).msg)).2.length ≤ MSGMNB →
      Step faulty s (.step p)
        { s.set p { s.procs p with pc := .sent, msg := outgoing p (s.procs p).msg } with
          queue := some (id, q.send (letter (outgoing p (s.procs p).msg))) }
  | sent {s : State ι κ} {p : ι ⊕ κ} : (s.procs p).pc = .sent →
      Step faulty s (.step p) (s.set p { s.procs p with
        pc := afterSent p
        lines := (s.procs p).lines ++ [sentLine (s.procs p).msg p] })
  | recv {s : State ι κ} {p : ι ⊕ κ} {id : ℕ} {q q' : TypedQueue ℕ (List UInt8)}
      {bytes : List UInt8} :
      (s.procs p).pc = .recv → s.Holds p id → s.queue = some (id, q) →
      q.receive (wanted p) = some (bytes, q') → bytes.length ≤ MSG_TEXT_SIZE →
      Step faulty s (.step p)
        { s.set p { s.procs p with
            pc := .got
            msg := incoming (wanted p) bytes (s.procs p).msg } with
          queue := some (id, q') }
  | got {s : State ι κ} {p : ι ⊕ κ} : (s.procs p).pc = .got →
      Step faulty s (.step p) (s.set p { s.procs p with
        pc := afterGot p
        lines := (s.procs p).lines ++ [.received (cstr (s.procs p).msg.mtext)] })
  | remove {s : State ι κ} {p : ι ⊕ κ} {id : ℕ} : (s.procs p).pc = .remove → s.Holds p id →
      s.Live id → Step faulty s (.step p) { s.goto p (.exited 0) with queue := none }
  | cleanup {s : State ι κ} {p : ι ⊕ κ} {id : ℕ} : (s.procs p).pc = .cleanup → s.Holds p id →
      s.Live id → Step faulty s (.step p) { s.goto p (.exited 1) with queue := none }
  | cleanupNone {s : State ι κ} {p : ι ⊕ κ} {id : ℕ} : (s.procs p).pc = .cleanup →
      s.Holds p id → ¬ s.Live id → Step faulty s (.step p) (s.goto p (.exited 1))
  | fail {s : State ι κ} {p : ι ⊕ κ} : (s.procs p).pc.Calls →
      (s.Refused p ∨ faulty = true) →
      Step faulty s (.fail p) (s.goto p (afterFail p (s.procs p).pc))
  | kill {s : State ι κ} {p : ι ⊕ κ} : (s.procs p).pc.Runs → faulty = true →
      Step faulty s (.kill p) (s.goto p .killed)

/-- No queue is left over. -/
def lts (faulty : Bool) : Lts (State ι κ) (Label ι κ) where
  init s := s.queue = none ∧ s.made = 0 ∧
    ∀ p, (s.procs p).pc = .start ∧ (s.procs p).msgid = none ∧ (s.procs p).lines = []
  step := Step faulty

end EltexSystems.Sysv
