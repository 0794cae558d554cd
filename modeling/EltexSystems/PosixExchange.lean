import EltexSystems.Lib.Bytes
import EltexSystems.Lib.CString
import EltexSystems.Lib.Lts
import Mathlib.Logic.Function.Basic

/-!
# The exchange of `message_queues/server_posix.c` and `client_posix.c`

The server and any number of clients over the one queue they all open for reading and writing, every
call a step, which may fail.  A process is a client or `none`, the server; a message in the queue is
kept with the process that sent it.
-/

namespace EltexSystems

open CStr Mem

def QUEUE_MAXMSG : ℕ := 10

variable {ι : Type*}

/-- Where a process is.  The server sends first, a client receives first. -/
inductive ExchangePc where
  | starting
  | opened
  | sent
  | received
  | printed
  | gone
  deriving DecidableEq

structure ExchangeProc where
  pc : ExchangePc
  buf : List UInt8

structure Letter (ι : Type*) where
  sender : Option ι
  bytes : List UInt8

structure Exchange (ι : Type*) where
  linked : Bool
  queue : List (Letter ι)
  procs : Option ι → ExchangeProc

/-- Where a process calls `mq_send`, `mq_receive` and `mq_close`. -/
def sendsAt : Option ι → ExchangePc
  | none => .opened
  | some _ => .printed

def receivesAt : Option ι → ExchangePc
  | none => .sent
  | some _ => .opened

def closesAt : Option ι → ExchangePc
  | none => .printed
  | some _ => .sent

/-- What a process sends. -/
def exchangeText : Option ι → List UInt8
  | none => ascii "Hi!"
  | some _ => ascii "Hello!"

/-- `strcpy(buf, s)`. -/
def strcpy (buf s : List UInt8) : List UInt8 := memcpy buf 0 (s ++ [0]) (s.length + 1)

inductive ExchangeLabel (ι : Type*) where
  | mqOpen (p : Option ι)
  | send (p : Option ι)
  | receive (p : Option ι)
  | print (p : Option ι)
  | close (p : Option ι)
  | fail (p : Option ι)

variable [DecidableEq ι]

def Exchange.set (s : Exchange ι) (p : Option ι) (pc : ExchangePc) (buf : List UInt8) :
    Exchange ι :=
  { s with procs := Function.update s.procs p ⟨pc, buf⟩ }

inductive ExchangeStep : Exchange ι → ExchangeLabel ι → Exchange ι → Prop where
  | create {s : Exchange ι} : (s.procs none).pc = .starting →
      ExchangeStep s (.mqOpen none)
        { s.set none .opened (s.procs none).buf with linked := true, queue := [] }
  | mqOpen {s : Exchange ι} {c : ι} : (s.procs (some c)).pc = .starting → s.linked = true →
      ExchangeStep s (.mqOpen (some c)) (s.set (some c) .opened (s.procs (some c)).buf)
  | send {s : Exchange ι} {p : Option ι} : (s.procs p).pc = sendsAt p →
      s.queue.length < QUEUE_MAXMSG →
      ExchangeStep s (.send p)
        { s.set p .sent (strcpy (s.procs p).buf (exchangeText p)) with
          queue := s.queue ++ [⟨p, cstr (strcpy (s.procs p).buf (exchangeText p)) ++ [0]⟩] }
  | receive {s : Exchange ι} {p : Option ι} {m : Letter ι} {rest : List (Letter ι)} :
      (s.procs p).pc = receivesAt p → s.queue = m :: rest →
      ExchangeStep s (.receive p)
        { s.set p .received (memcpy (s.procs p).buf 0 m.bytes m.bytes.length) with queue := rest }
  | print {s : Exchange ι} {p : Option ι} : (s.procs p).pc = .received →
      ExchangeStep s (.print p) (s.set p .printed (s.procs p).buf)
  | close {s : Exchange ι} {p : Option ι} : (s.procs p).pc = closesAt p →
      ExchangeStep s (.close p)
        { s.set p .gone (s.procs p).buf with linked := s.linked && p.isSome }
  | fail {s : Exchange ι} {p : Option ι} :
      (s.procs p).pc = .starting ∨ (s.procs p).pc = sendsAt p ∨ (s.procs p).pc = receivesAt p →
      ExchangeStep s (.fail p)
        { s.set p .gone (s.procs p).buf with linked := s.linked && p.isSome }

/-- No queue of the name is left over. -/
def exchangeLts : Lts (Exchange ι) (ExchangeLabel ι) where
  init s := s.linked = false ∧ s.queue = [] ∧ ∀ p, (s.procs p).pc = .starting
  step := ExchangeStep

/-- One of the two is the server and the other a client. -/
def Opposite (p q : Option ι) : Prop := p = none ↔ q ≠ none

/-- A process consumes what the other side has sent, and prints what it has. -/
structure BetweenSides (tr : List (Exchange ι × ExchangeLabel ι)) : Prop where
  consumed : ∀ s p m rest, (s, .receive p) ∈ tr → s.queue = m :: rest → Opposite m.sender p
  printed : ∀ tr₁ s p tr₂, tr = tr₁ ++ (s, .print p) :: tr₂ → ∃ u q, (u, .send q) ∈ tr₁ ∧
    Opposite q p ∧ cstr (s.procs p).buf = exchangeText q

/-- The server receives behind a client, a client before every other process. -/
def InTurn (tr : List (Exchange ι × ExchangeLabel ι)) : Prop :=
  ∀ tr₁ s p tr₂, tr = tr₁ ++ (s, .receive p) :: tr₂ →
    (p = none → ∃ u c, (u, .receive (some c)) ∈ tr₁) ∧
      (p ≠ none → ∀ u q, (u, .receive q) ∉ tr₁)

end EltexSystems
