import EltexSystems.Lib.CString
import EltexSystems.Lib.Semaphore
import Mathlib.Logic.Function.Basic

/-!
# The shared memory chat

The server of `shared_memory/chat_server.c` and any number of clients of
`shared_memory/chat_client.c`, each with its main thread, its receiver and its sender, over one
segment and one semaphore.  Every access to the segment is a step of its own, so that the critical
sections of two threads that are both inside interleave.  A `semop` waits while the value is 0 and
returns at once when the semaphore does not exist, and `lock_sem` does not look at what it returns.
-/

namespace EltexSystems.ShmChat

open CStr

def MAX_CLIENTS : ℕ := 10

def MAX_MESSAGES : ℕ := 100

def NAME_LEN : ℕ := 32

def TEXT_LEN : ℕ := 256

theorem NAME_LEN_pos : 0 < NAME_LEN := by decide

theorem TEXT_LEN_pos : 0 < TEXT_LEN := by decide

structure ChatMessage where
  sender : CharArray NAME_LEN
  text : CharArray TEXT_LEN
  deriving DecidableEq

structure Chat where
  server_running : Bool
  client_count : ℕ
  client_names : ℕ → CharArray NAME_LEN
  message_count : ℕ
  messages : ℕ → ChatMessage

/-- A zeroed segment. -/
def Chat.zero : Chat where
  server_running := false
  client_count := 0
  client_names _ := .print [] NAME_LEN_pos
  message_count := 0
  messages _ := ⟨.print [] NAME_LEN_pos, .print [] TEXT_LEN_pos⟩

/-- The semaphore, the segment, and a record of the message slots written and of how many times
`message_count` was incremented. -/
structure Shared where
  sem : Option ℕ
  chat : Chat
  writes : List ℕ
  increments : ℕ

/-- Where a thread is in `if (count < max) { slot[count] = ..; count++; }`. -/
inductive Phase where
  | test
  | slot
  | write (n : ℕ)
  | load
  | store (n : ℕ)
  deriving DecidableEq, Repr

/-- Where the thread is after one more access, `none` behind the statement. -/
def Phase.next (max count : ℕ) : Phase → Option Phase
  | .test => if count < max then some .slot else none
  | .slot => some (.write count)
  | .write _ => some .load
  | .load => some (.store count)
  | .store _ => none

/-- Where a client's main thread is, from `shmget` on. -/
inductive MainPc where
  | shmget
  | shmat
  | semget
  | lock
  | register (p : Phase)
  | append (p : Phase)
  | unlock
  | create
  | join
  | joinReceiver
  | exited
  deriving DecidableEq, Repr

/-- Where a receiver thread is; `off` before it is created and after it has returned. -/
inductive ReceiverPc where
  | off
  | top
  | lock
  | total
  | show
  | names
  | unlock
  deriving DecidableEq, Repr

inductive SenderPc where
  | off
  | top
  | getnstr
  | lock
  | append (p : Phase)
  | unlock
  deriving DecidableEq, Repr

structure Client where
  name : CharArray NAME_LEN
  running : Bool
  main : MainPc
  receiver : ReceiverPc
  sender : SenderPc
  buf : CharArray TEXT_LEN
  last_seen : ℕ
  total : ℕ
  shown : List ChatMessage
  users : List (CharArray NAME_LEN)

/-- `semop` with -1. -/
def lockSem (m : Shared) : Option Shared :=
  match m.sem with
  | some 0 => none
  | some (n + 1) => some { m with sem := some n }
  | none => some m

/-- `semop` with 1. -/
def unlockSem (m : Shared) : Shared := { m with sem := m.sem.map (· + 1) }

def registerName (name : CharArray NAME_LEN) (p : Phase) (m : Shared) : Shared :=
  match p with
  | .write n =>
    { m with chat := { m.chat with
        client_names := Function.update m.chat.client_names n (.print name.text NAME_LEN_pos) } }
  | .store n => { m with chat := { m.chat with client_count := n + 1 } }
  | _ => m

def appendMessage (msg : ChatMessage) (p : Phase) (m : Shared) : Shared :=
  match p with
  | .write n =>
    { m with
      chat := { m.chat with messages := Function.update m.chat.messages n msg }
      writes := m.writes ++ [n] }
  | .store n =>
    { m with
      chat := { m.chat with message_count := n + 1 }
      increments := m.increments + 1 }
  | _ => m

def joinMessage (c : Client) : ChatMessage where
  sender := .print (ascii "server") NAME_LEN_pos
  text := .print (c.name.text ++ ascii " joined") TEXT_LEN_pos

def lineMessage (c : Client) : ChatMessage where
  sender := .print c.name.text NAME_LEN_pos
  text := .print c.buf.text TEXT_LEN_pos

/-- A step of `main`; `ok` is whether the call in it succeeds, `segment` whether there is one. -/
def mainStep (ok segment : Bool) (c : Client) (m : Shared) : Option (Client × Shared) :=
  match c.main with
  | .shmget => some ({ c with main := if ok && segment then .shmat else .exited }, m)
  | .shmat => some ({ c with main := if ok then .semget else .exited }, m)
  | .semget => some ({ c with main := if ok && m.sem.isSome then .lock else .exited }, m)
  | .lock => (lockSem m).map fun m => ({ c with main := .register .test }, m)
  | .register p =>
    some ({ c with
      main := match p.next MAX_CLIENTS m.chat.client_count with
        | some q => .register q
        | none => if p = .test then .unlock else .append .test }, registerName c.name p m)
  | .append p =>
    some ({ c with
      main := match p.next MAX_MESSAGES m.chat.message_count with
        | some q => .append q
        | none => .unlock }, appendMessage (joinMessage c) p m)
  | .unlock => some ({ c with main := .create }, unlockSem m)
  | .create => some ({ c with main := .join, receiver := .top, sender := .top }, m)
  | .join =>
    if c.sender = .off then some ({ c with main := .joinReceiver, running := false }, m) else none
  | .joinReceiver => if c.receiver = .off then some ({ c with main := .exited }, m) else none
  | .exited => none

def receiverStep (c : Client) (m : Shared) : Option (Client × Shared) :=
  match c.receiver with
  | .off => none
  | .top =>
    some ({ c with receiver := if c.running && m.chat.server_running then .lock else .off }, m)
  | .lock => (lockSem m).map fun m => ({ c with receiver := .total }, m)
  | .total => some ({ c with receiver := .show, total := m.chat.message_count }, m)
  | .show =>
    if c.last_seen < c.total ∧ c.last_seen < MAX_MESSAGES then
      some ({ c with
        shown := c.shown ++ [m.chat.messages c.last_seen], last_seen := c.last_seen + 1 }, m)
    else some ({ c with receiver := .names }, m)
  | .names =>
    some ({ c with
      receiver := .unlock
      users := (List.range (min m.chat.client_count MAX_CLIENTS)).map m.chat.client_names }, m)
  | .unlock => some ({ c with receiver := .top }, unlockSem m)

/-- A step of the sender, `line` being what `getnstr` reads. -/
def senderStep (line : CharArray TEXT_LEN) (c : Client) (m : Shared) : Option (Client × Shared) :=
  match c.sender with
  | .off => none
  | .top =>
    some ({ c with sender := if c.running && m.chat.server_running then .getnstr else .off }, m)
  | .getnstr =>
    if line.text = ascii "/quit" then some ({ c with sender := .off, running := false }, m)
    else if line.text = [] then some ({ c with sender := .top }, m)
    else some ({ c with sender := .lock, buf := line }, m)
  | .lock => (lockSem m).map fun m => ({ c with sender := .append .test }, m)
  | .append p =>
    some ({ c with
      sender := match p.next MAX_MESSAGES m.chat.message_count with
        | some q => .append q
        | none => .unlock }, appendMessage (lineMessage c) p m)
  | .unlock => some ({ c with sender := .top }, unlockSem m)

inductive Role where
  | main
  | receiver
  | sender
  deriving DecidableEq, Repr

inductive Act where
  | main (ok : Bool)
  | receiver
  | sender (line : CharArray TEXT_LEN)

def Act.role : Act → Role
  | .main _ => .main
  | .receiver => .receiver
  | .sender _ => .sender

def clientStep (segment : Bool) : Act → Client → Shared → Option (Client × Shared)
  | .main ok => mainStep ok segment
  | .receiver => receiverStep
  | .sender line => senderStep line

/-- Where the server is; `failed` after an error at startup. -/
inductive ServerPc where
  | shmget
  | shmat
  | memset
  | running
  | semget
  | setval
  | getchar
  | stopping
  | shmRmid
  | semRmid
  | exited
  | failed
  deriving DecidableEq, Repr

/-- The server, whether there is a segment under the key, the memory and the clients. -/
structure World (ι : Type*) where
  server : ServerPc
  segment : Bool
  mem : Shared
  clients : ι → Client

variable {ι : Type*}

/-- A step of the server; `ok` is whether the call in it succeeds. -/
def serverStep (ok : Bool) (w : World ι) : Option (World ι) :=
  match w.server with
  | .shmget =>
    if ok then
      some { w with
        server := .shmat
        segment := true
        mem := { w.mem with chat := if w.segment then w.mem.chat else .zero } }
    else some { w with server := .failed }
  | .shmat => some { w with server := if ok then .memset else .failed }
  | .memset => some { w with server := .running, mem := { w.mem with chat := .zero } }
  | .running =>
    some { w with
      server := .semget
      mem := { w.mem with chat := { w.mem.chat with server_running := true } } }
  | .semget =>
    if ok then
      some { w with server := .setval, mem := { w.mem with sem := some (w.mem.sem.getD 0) } }
    else some { w with server := .failed }
  | .setval =>
    if ok then some { w with server := .getchar, mem := { w.mem with sem := some 1 } }
    else some { w with server := .failed }
  | .getchar => some { w with server := .stopping }
  | .stopping =>
    some { w with
      server := .shmRmid
      mem := { w.mem with chat := { w.mem.chat with server_running := false } } }
  | .shmRmid => some { w with server := .semRmid, segment := w.segment && !ok }
  | .semRmid =>
    some { w with
      server := .exited, mem := { w.mem with sem := if ok then none else w.mem.sem } }
  | .exited => none
  | .failed => none

inductive Label (ι : Type*) where
  | server (ok : Bool)
  | client (i : ι) (a : Act)

variable [DecidableEq ι]

def step (w : World ι) : Label ι → Option (World ι)
  | .server ok => serverStep ok w
  | .client i a =>
    (clientStep w.segment a (w.clients i) w.mem).map fun r =>
      { w with mem := r.2, clients := Function.update w.clients i r.1 }

/-- A client before `shmget`, with its name. -/
def Client.start (name : CharArray NAME_LEN) : Client where
  name := name
  running := true
  main := .shmget
  receiver := .off
  sender := .off
  buf := .print [] TEXT_LEN_pos
  last_seen := 0
  total := 0
  shown := []
  users := []

/-- Neither the segment nor the semaphore exists. -/
def World.start (names : ι → CharArray NAME_LEN) : World ι where
  server := .shmget
  segment := false
  mem := ⟨none, .zero, [], 0⟩
  clients i := .start (names i)

def shmLts : Lts (World ι) (Label ι) where
  init w := ∃ names, w = .start names
  step w l w' := step w l = some w'

/-- The thread's `lock_sem` is what it does next. -/
def Client.Locking (c : Client) : Role → Prop
  | .main => c.main = .lock
  | .receiver => c.receiver = .lock
  | .sender => c.sender = .lock

/-- The thread is between a returned `lock_sem` and the matching `unlock_sem`. -/
def Client.Inside (c : Client) : Role → Prop
  | .main =>
    match c.main with
    | .register _ => True
    | .append _ => True
    | .unlock => True
    | _ => False
  | .receiver =>
    match c.receiver with
    | .total => True
    | .show => True
    | .names => True
    | .unlock => True
    | _ => False
  | .sender =>
    match c.sender with
    | .append _ => True
    | .unlock => True
    | _ => False

/-- One of the process's threads is inside. -/
def World.Inside (w : World ι) (i : ι) : Prop := ∃ r, (w.clients i).Inside r

/-- At most one process is inside, no message slot has been written twice, and every increment of
`message_count` counts. -/
structure Exclusive (w : World ι) : Prop where
  inside : ∀ i j, w.Inside i → w.Inside j → i = j
  slots : w.mem.writes.Nodup
  increments : w.mem.chat.message_count = w.mem.increments

/-- No `lock_sem` fails, the semaphore being removed, while another process is inside. -/
def Clear (w : World ι) : Label ι → Prop
  | .client i a =>
    (w.clients i).Locking a.role → w.mem.sem = none → ∀ j, w.Inside j → j = i
  | .server _ => True

end EltexSystems.ShmChat
