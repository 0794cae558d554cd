import EltexSystems.Lib.Lts
import EltexSystems.MqChat
import Mathlib.Logic.Function.Basic

/-!
# The message queue chat as a system

The server's loop with every `mq_send` a step that blocks on a full queue, and any number of clients
of `message_queues/chat_client.c`, each with its main thread, its receiver thread and the
`screen_mutex` both take.  The main thread holds the mutex from before `wgetnstr` to after it.  A
descriptor is the client whose queue it stands for; no two clients have the same queue name.
-/

namespace EltexSystems

open CStr

def MAXMSG : ℕ := 10

/-- Where a client's main thread is, from before it creates its queue to after it has closed and
unlinked it and joined its receiver. -/
inductive MainPc where
  | starting
  | opened
  | joined
  | top
  | prompt
  | typed (line : CharArray MAX_TEXT)
  | sending (line : CharArray MAX_TEXT)
  | quitting
  | closed
  | gone

inductive ReceiverPc where
  | absent
  | receiving
  | holding (msg : ChatMsg)
  | printing
  | dead

structure ChatClient where
  main : MainPc
  receiver : ReceiverPc
  queue : List ChatMsg

/-- The main thread holds `screen_mutex`. -/
def MainPc.HoldsScreen : MainPc → Prop
  | .prompt => True
  | .typed _ => True
  | _ => False

/-- The client's queue can be opened by its name. -/
def MainPc.Linked : MainPc → Prop
  | .starting => False
  | .closed => False
  | .gone => False
  | _ => True

inductive ClientAct where
  | create
  | spawn
  | lock
  | keys (line : CharArray MAX_TEXT)
  | unlock
  | close
  | leave
  | take
  | grab
  | print
  | fail

/-- What either thread of a client does by itself. -/
inductive ClientStep : ChatClient → ClientAct → ChatClient → Prop where
  | create {cl : ChatClient} : cl.main = .starting →
      ClientStep cl .create { cl with main := .opened }
  | spawn {cl : ChatClient} : cl.main = .joined →
      ClientStep cl .spawn { cl with main := .top, receiver := .receiving }
  | lock {cl : ChatClient} : cl.main = .top → cl.receiver ≠ .printing →
      ClientStep cl .lock { cl with main := .prompt }
  | keys {cl : ChatClient} (line : CharArray MAX_TEXT) : cl.main = .prompt →
      ClientStep cl (.keys line) { cl with main := .typed line }
  | unlock {cl : ChatClient} {line : CharArray MAX_TEXT} : cl.main = .typed line →
      ClientStep cl .unlock
        { cl with main := if line.text = ascii "/quit" then .quitting else .sending line }
  | close {cl : ChatClient} : cl.main = .quitting →
      ClientStep cl .close { cl with main := .closed }
  | leave {cl : ChatClient} : cl.main = .closed → cl.receiver = .dead →
      ClientStep cl .leave { cl with main := .gone }
  | take {cl : ChatClient} {m : ChatMsg} {rest : List ChatMsg} : cl.main ≠ .closed →
      cl.receiver = .receiving → cl.queue = m :: rest →
      ClientStep cl .take { cl with receiver := .holding m, queue := rest }
  | grab {cl : ChatClient} {m : ChatMsg} : cl.receiver = .holding m → ¬ cl.main.HoldsScreen →
      ClientStep cl .grab { cl with receiver := .printing }
  | print {cl : ChatClient} : cl.receiver = .printing →
      ClientStep cl .print { cl with receiver := .receiving }
  | fail {cl : ChatClient} : cl.main = .closed → cl.receiver = .receiving →
      ClientStep cl .fail { cl with receiver := .dead }

/-- The name of a client's queue. -/
def clientQname (pid : ℕ) : CharArray MAX_QNAME :=
  .print (ascii "/chat_" ++ decimal pid) MAX_QNAME_pos

/-- The clients' process ids and nicknames. -/
structure MqNet (ι : Type*) where
  pid : ι → ℕ
  nickname : ι → CharArray MAX_NAME
  distinct : Function.Injective fun c => (clientQname (pid c)).text

namespace MqNet

variable {ι : Type*} (net : MqNet ι)

def qname (c : ι) : CharArray MAX_QNAME := clientQname (net.pid c)

def joinMsg (c : ι) : ChatMsg where
  type := 74
  name := .print (net.nickname c).text MAX_NAME_pos
  qname := .print (net.qname c).text MAX_QNAME_pos
  text := .print [] MAX_TEXT_pos

def lineMsg (c : ι) (line : CharArray MAX_TEXT) : ChatMsg where
  type := 77
  name := .print (net.nickname c).text MAX_NAME_pos
  qname := .print [] MAX_QNAME_pos
  text := .print line.text MAX_TEXT_pos

end MqNet

/-- The server, the messages its handler still has to send and whether it is inside `mq_send` with
the first of them, the server's queue, and the clients. -/
structure MqSystem (ι : Type*) where
  server : ChatServer ι
  outgoing : List (ι × ChatMsg)
  calling : Bool
  inbox : List ChatMsg
  clients : ι → ChatClient

inductive MqLabel (ι : Type*) where
  | client (c : ι) (a : ClientAct)
  | submit (c : ι)
  | receive (opened : Option ι)
  | call
  | deliver

variable {ι : Type*} [DecidableEq ι]

/-- What `mq_open` finds under a name. -/
def MqSystem.Opens (net : MqNet ι) (s : MqSystem ι) (name : QueueName) : Option ι → Prop
  | some c => (s.clients c).main.Linked ∧ (net.qname c).text = name
  | none => ∀ c, (s.clients c).main.Linked → (net.qname c).text ≠ name

inductive MqStep (net : MqNet ι) : MqSystem ι → MqLabel ι → MqSystem ι → Prop where
  | client {s : MqSystem ι} {c : ι} {a : ClientAct} {cl : ChatClient} :
      ClientStep (s.clients c) a cl →
      MqStep net s (.client c a) { s with clients := Function.update s.clients c cl }
  | join {s : MqSystem ι} {c : ι} : (s.clients c).main = .opened → s.inbox.length < MAXMSG →
      MqStep net s (.submit c)
        { s with
          inbox := s.inbox ++ [net.joinMsg c]
          clients := Function.update s.clients c { s.clients c with main := .joined } }
  | message {s : MqSystem ι} {c : ι} {line : CharArray MAX_TEXT} :
      (s.clients c).main = .sending line → s.inbox.length < MAXMSG →
      MqStep net s (.submit c)
        { s with
          inbox := s.inbox ++ [net.lineMsg c line]
          clients := Function.update s.clients c { s.clients c with main := .top } }
  | receive {s : MqSystem ι} {m : ChatMsg} {rest : List ChatMsg} {opened : Option ι} :
      s.outgoing = [] → s.calling = false → s.inbox = m :: rest →
      s.Opens net m.qname.text opened →
      MqStep net s (.receive opened)
        { s with
          server := (handleRequest s.server m opened).server
          outgoing := (handleRequest s.server m opened).sends
          inbox := rest }
  | call {s : MqSystem ι} {p : ι × ChatMsg} {rest : List (ι × ChatMsg)} :
      s.outgoing = p :: rest → s.calling = false → MqStep net s .call { s with calling := true }
  | deliver {s : MqSystem ι} {c : ι} {m : ChatMsg} {rest : List (ι × ChatMsg)} :
      s.outgoing = (c, m) :: rest → s.calling = true → (s.clients c).queue.length < MAXMSG →
      MqStep net s .deliver
        { s with
          outgoing := rest
          calling := false
          clients := Function.update s.clients c
            { s.clients c with queue := (s.clients c).queue ++ [m] } }

def mqLts (net : MqNet ι) : Lts (MqSystem ι) (MqLabel ι) where
  init s := s = ⟨⟨[], []⟩, [], false, [], fun _ => ⟨.starting, .absent, []⟩⟩
  step := MqStep net

/-- The server is inside `mq_send` to a client whose queue is full. -/
def MqSystem.WaitsOn (s : MqSystem ι) (c : ι) : Prop :=
  s.calling = true ∧ (∃ m rest, s.outgoing = (c, m) :: rest) ∧ MAXMSG ≤ (s.clients c).queue.length

/-- A step of a client's own threads that needs no key pressed. -/
def Quiet (c : ι) (l : MqLabel ι) : Prop :=
  (∃ a, l = .client c a ∧ ∀ line, a ≠ .keys line) ∨ l = .submit c

/-- A client's threads can empty its queue with no key pressed. -/
def CanDrain (net : MqNet ι) (s : MqSystem ι) (c : ι) : Prop :=
  ∃ tr s', (mqLts net).Path s tr s' ∧ (∀ p ∈ tr, Quiet c p.2) ∧ (s'.clients c).queue = []

/-- Whatever the server waits on will be drained if its client is left alone. -/
def NeverHangs (net : MqNet ι) (s : MqSystem ι) : Prop := ∀ c, s.WaitsOn c → CanDrain net s c

/-- The client is at its prompt or has closed its queue. -/
def MainPc.Away : MainPc → Prop
  | .prompt => True
  | .closed => True
  | .gone => True
  | _ => False

/-- The server does not call `mq_send` on the full queue of a client that is away, and no client
goes to its prompt or closes its queue while the server waits on it. -/
def Clear (s : MqSystem ι) : MqLabel ι → Prop
  | .call => ∀ c m rest, s.outgoing = (c, m) :: rest → MAXMSG ≤ (s.clients c).queue.length →
      ¬ (s.clients c).main.Away
  | .client c .lock => ¬ s.WaitsOn c
  | .client c .close => ¬ s.WaitsOn c
  | _ => True

end EltexSystems
